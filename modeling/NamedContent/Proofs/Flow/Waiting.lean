import NamedContent.Proofs.Flow.Consumption
import NamedContent.Proofs.Flow.Record

/-! How long an interest waits.

An interest that is kept gets the next number and a deadline, counted from the
time that its batch was given. It waits until a put uses up its number, until
the flow is given a time that is not before its deadline, or until the close. So
which interests wait can be read off the moments passed. -/

set_option autoImplicit false

namespace NamedContent.Flow

variable {τ : Type}

def Event.given? : Event → Option Timestamp
  | .expired now => some now
  | _ => none

def lastGiven? (moments : List (Moment τ)) : Option Timestamp := (moments.filterMap (·.event.given?)).getLast?

structure Event.Spares (event : Event) (pending : Pending) : Prop where
  opened : event ≠ .managed .close
  unused : event.redeemed? ≠ some pending.seq
  early : ∀ now, event = .expired now → pending.isLive now = true

/-- An interest was kept at the time it joined, and nothing has ended its wait since. -/
inductive Waits (lifetime : Option Duration) (past : List (Moment τ)) (interest : Interest) (joined : Timestamp)
    (pending : Pending) : Prop where
  | since {earlier later : List (Moment τ)} {moment : Moment τ} (divided : past = earlier ++ moment :: later)
      (registered : moment.event = .registered interest) (given : lastGiven? earlier = some joined)
      (number : pending.seq = moment.before.nextSeq)
      (deadline : pending.deadline = lifetime.map fun lifetime => joined.add lifetime.millis)
      (spared : ∀ moment ∈ later, moment.event.Spares pending) : Waits lifetime past interest joined pending

section Histories
variable {past later : List (Moment τ)} {moment : Moment τ} {lifetime : Option Duration} {interest : Interest}
variable {joined : Timestamp} {pending : Pending}

theorem lastGiven?_append :
    lastGiven? (past ++ later) = (lastGiven? later).or (lastGiven? past) := by
  rw [lastGiven?, List.filterMap_append, List.getLast?_append]
  rfl

theorem lastGiven?_cons : lastGiven? (moment :: later) = (lastGiven? later).or moment.event.given? := by
  rw [← List.singleton_append, lastGiven?_append]
  cases given : moment.event.given? <;> simp [lastGiven?, given]

theorem lastGiven?_eq_none (silent : ∀ moment ∈ past, moment.event.given? = none) : lastGiven? past = none := by
  rw [lastGiven?, List.filterMap_eq_nil_iff.mpr silent]
  rfl

theorem given_of_lastGiven? (given : lastGiven? past = some joined) : ∃ moment ∈ past, moment.event = .expired joined := by
  obtain ⟨moment, found, gives⟩ := List.mem_filterMap.mp (List.mem_of_getLast? given)
  refine ⟨moment, found, ?_⟩
  unfold Event.given? at gives
  split at gives
  · rename_i now expired
    rw [expired, Option.some.inj gives]
  · exact absurd gives (by simp)

/-- One moment later the same interests wait, but those whose wait it ends, and the one it registers. -/
theorem waits_concat_iff :
    Waits lifetime (past ++ [moment]) interest joined pending ↔
      Waits lifetime past interest joined pending ∧ moment.event.Spares pending ∨
      moment.event = .registered interest ∧ lastGiven? past = some joined ∧
        pending = ⟨moment.before.nextSeq, lifetime.map fun lifetime => joined.add lifetime.millis⟩ := by
  constructor
  · rintro @⟨earlier, later, first, divided, registered, given, number, deadline, spared⟩
    rcases List.eq_nil_or_concat later with rfl | ⟨middle, last, rfl⟩
    · obtain ⟨rfl, same⟩ := List.append_inj' divided rfl
      obtain ⟨rfl, -⟩ := List.cons.inj same
      exact Or.inr ⟨registered, given, by rw [← number, ← deadline]⟩
    · rw [List.concat_eq_append, ← List.cons_append, ← List.append_assoc] at divided
      obtain ⟨rfl, same⟩ := List.append_inj' divided rfl
      obtain ⟨rfl, -⟩ := List.cons.inj same
      simp only [List.concat_eq_append, List.forall_mem_append, List.forall_mem_singleton] at spared
      exact Or.inl ⟨.since rfl registered given number deadline spared.1, spared.2⟩
  · rintro (⟨⟨divided, registered, given, number, deadline, spared⟩, sparesToo⟩ | ⟨registered, given, rfl⟩)
    · refine .since (by rw [divided, List.append_assoc, List.cons_append]) registered given number deadline ?_
      simpa only [List.forall_mem_append, List.forall_mem_singleton] using ⟨spared, sparesToo⟩
    · exact .since rfl registered given rfl rfl (by simp)

end Histories

variable {flow : Flow τ} {past later : List (Moment τ)} {moment : Moment τ} {interest : Interest} {pending : Pending}

theorem mem_register_iff {asked : Interest} {now : Timestamp} (wellFormed : flow.pending.WellFormed) :
    Entry.interest interest pending ∈ (flow.register asked now).pending.toList ↔
      Entry.interest interest pending ∈ flow.pending.toList ∨ asked = interest ∧
        pending = ⟨flow.nextSeq, flow.config.interestLifetime.map fun lifetime => now.add lifetime.millis⟩ := by
  rw [register, Table.mem_addInterest_iff wellFormed, Entry.interest.injEq]
  exact or_congr_right (and_congr_left' eq_comm)

variable [Transport τ]

/-! The time at which an interest is kept. -/

theorem after_of_mem_askMoments {now : Timestamp} {interests : List Interest}
    (found : moment ∈ flow.askMoments now interests) (registered : moment.event = .registered interest) :
    moment.after = moment.before.register interest now := by
  induction interests generalizing flow with
  | nil => exact absurd found List.not_mem_nil
  | cons first rest ih =>
    cases asked : flow.askOne first now with
    | mk reply after =>
      simp only [askMoments, asked, List.mem_cons] at found
      rcases found with rfl | later
      · simp only at registered ⊢
        split at registered
        · exact absurd registered (by simp)
        · rename_i heeded
          cases best : flow.bestBuffered? first with
          | some object =>
            rw [best] at registered
            cases reply <;> exact absurd registered (by simp [askEvent])
          | none =>
            rw [best] at registered
            obtain rfl := Event.registered.inj registered
            simp only [askOne, if_neg heeded, best] at asked
            exact (Prod.mk.inj asked).2.symm
      · cases reply with
        | error failure => exact absurd later List.not_mem_nil
        | ok hit => exact ih later

theorem Event.given?_of_asked? {event : Event} (asked : event.asked? = some interest) : event.given? = none := by
  cases event <;> first | rfl | exact absurd asked (by simp [Event.asked?])

theorem exists_register {requests : List Request} (divided : flow.history requests = past ++ moment :: later)
    (registered : moment.event = .registered interest) :
    ∃ joined, lastGiven? past = some joined ∧ moment.after = moment.before.register interest joined := by
  obtain ⟨earlier, inside, rest, reached, request, rfl, within⟩ := exists_moments_of_history divided
  have asks : moment.event.asked? = some interest := by
    rw [registered]
    rfl
  have listed : moment ∈ reached.moments request := within ▸ List.mem_append_right _ List.mem_cons_self
  cases request with
  | put object now =>
    have quiet := (quiet_of_mem_putMoments listed).1
    exact absurd (asks.symm.trans quiet) (by simp)
  | ask interests now =>
    cases inside with
    | nil =>
      obtain ⟨rfl, -⟩ := List.cons.inj within
      exact absurd registered (by simp)
    | cons head inside =>
      obtain ⟨rfl, rest⟩ := List.cons.inj within
      have others : (reached.expire now).askMoments now interests = inside ++ moment :: _ := rest
      have silent : lastGiven? inside = none := by
        refine lastGiven?_eq_none fun other found => ?_
        have member : other ∈ (reached.expire now).askMoments now interests := others ▸ List.mem_append_left _ found
        obtain ⟨also, -, asked⟩ := asked_of_mem_askMoments member
        exact Event.given?_of_asked? asked
      refine ⟨now, ?_, after_of_mem_askMoments (others ▸ List.mem_append_right _ List.mem_cons_self) registered⟩
      rw [lastGiven?_append, lastGiven?_cons, silent]
      rfl
  | _ =>
    rw [List.mem_singleton.mp listed] at registered
    exact absurd registered (by simp)

/-! What ends a wait. -/

theorem Step.remains_iff {before after : Flow τ} {event : Event} (step : before.Step event after)
    (held : Numbered past before) (waits : Entry.interest interest pending ∈ before.pending.toList) :
    Entry.interest interest pending ∈ after.pending.toList ↔ event.Spares pending := by
  constructor
  · intro stays
    refine ⟨?_, ?_, ?_⟩
    · rintro rfl
      cases step
      exact absurd stays List.not_mem_nil
    · intro used
      cases step with
      | @deliver object candidate transport judged =>
        cases judged with
        | deliver weighed best =>
          have member := (waiting_of_bestPending? held.wellFormed best).1
          have same := List.inj_on_of_nodup_map held.seqs_nodup member waits (Option.some.inj used)
          rw [← same, Table.toList_removeInterest held.wellFormed held.distinct member] at stays
          exact held.distinct.not_mem_erase stays
      | _ => exact absurd used (by simp [Event.redeemed?])
    · rintro now rfl
      cases step
      exact ((Table.mem_filter_iff held.wellFormed).mp stays).2
  · intro spares
    by_contra gone
    rcases step.left_cases held.wellFormed held.distinct waits gone with ⟨object, candidate, delivered, same⟩ |
      ⟨now, expired, late⟩ | closes
    · obtain ⟨-, rfl⟩ := Entry.interest.inj same
      exact spares.unused (by rw [delivered, Event.redeemed?])
    · exact absurd ((spares.early now expired).symm.trans late) (by simp)
    · exact spares.opened closes

theorem mem_after_iff {requests : List Request} (divided : flow.history requests = past ++ moment :: later)
    (step : moment.before.Step moment.event moment.after) (held : Numbered past moment.before) :
    Entry.interest interest pending ∈ moment.after.pending.toList ↔
      Entry.interest interest pending ∈ moment.before.pending.toList ∧ moment.event.Spares pending ∨
      moment.event = .registered interest ∧ ∃ joined, lastGiven? past = some joined ∧
        pending = ⟨moment.before.nextSeq,
          moment.before.config.interestLifetime.map fun lifetime => joined.add lifetime.millis⟩ := by
  by_cases waits : Entry.interest interest pending ∈ moment.before.pending.toList
  · rw [step.remains_iff held waits]
    refine ⟨fun spares => Or.inl ⟨waits, spares⟩, ?_⟩
    rintro (⟨-, spares⟩ | ⟨-, joined, -, rfl⟩)
    · exact spares
    · -- The number of one that waits has been given out before.
      exact absurd (held.number_lt (List.mem_map_of_mem waits)) (Nat.lt_irrefl _)
  · constructor
    · intro entered
      rcases step.entered_cases held.wellFormed entered with earlier | ⟨asked, deadline, registered, same⟩
      · exact absurd earlier waits
      · obtain ⟨rfl, -⟩ := Entry.interest.inj same
        obtain ⟨joined, given, kept⟩ := exists_register divided registered
        rw [kept, mem_register_iff held.wellFormed] at entered
        exact Or.inr ⟨registered, joined, given, (entered.resolve_left waits).2⟩
    · rintro (⟨earlier, -⟩ | ⟨registered, joined, given, number⟩)
      · exact absurd earlier waits
      · obtain ⟨also, alsoGiven, kept⟩ := exists_register divided registered
        obtain rfl := Option.some.inj (given.symm.trans alsoGiven)
        rw [kept, mem_register_iff held.wellFormed]
        exact Or.inr ⟨rfl, number⟩

theorem Trail.mem_pending_iff {config : FlowConfig} {transport : τ} {requests : List Request}
    {moments : List (Moment τ)} {final : Flow τ} (trail : Trail (Flow.new config transport) moments final)
    (begins : moments <+: (Flow.new config transport).history requests) :
    Entry.interest interest pending ∈ final.pending.toList ↔
      ∃ joined, Waits config.interestLifetime moments interest joined pending := by
  refine trail.carries (List.nil_append _).symm (fun past flow =>
    Entry.interest interest pending ∈ flow.pending.toList ↔
      ∃ joined, Waits config.interestLifetime past interest joined pending) ?_ ?_
  · refine iff_of_false List.not_mem_nil ?_
    rintro ⟨joined, ⟨divided, -⟩⟩
    exact absurd divided (by simp)
  · intro past later moment divided step held
    obtain ⟨rest, whole⟩ := begins
    rw [divided] at trail whole
    obtain ⟨reached, -, -⟩ := trail.at_moment
    rw [List.append_assoc, List.cons_append] at whole
    have limit : moment.before.config.interestLifetime = config.interestLifetime := reached.lifetime
    simp only [mem_after_iff whole.symm step reached.numbered, waits_concat_iff, exists_or, exists_and_right,
      exists_and_left, ← held, limit]

end NamedContent.Flow
