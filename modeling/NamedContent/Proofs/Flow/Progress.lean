import Mathlib.Data.List.DropRight
import Mathlib.Order.Bounds.Defs
import NamedContent.Proofs.Flow.Forgetting
import NamedContent.Proofs.Flow.Overtaking
import NamedContent.Proofs.Flow.Record

/-! How far a stream has moved, and when that is forgotten.

The mark of a stream is the greatest number that has gone out for an interest
since the mark was last forgotten. It is forgotten with age, with the last
namespace over the stream, or with the flow. The age counts from the latest time
that the flow had been given when the stream last moved, so along a history the
mark stands beside the segments delivered and the times given. -/

set_option autoImplicit false

namespace NamedContent

namespace Flow

def Event.advance? (event : Event) (stream : Name) : Option UInt64 :=
  event.consumed?.bind fun (_, object) => object.name.numberIn? stream

section Advances
variable {event : Event} {stream : Name} {number : UInt64}

theorem Event.advance?_eq_some_iff :
    event.advance? stream = some number ↔ event.Advances stream number := by
  rw [advance?, Option.bind_eq_some_iff]
  constructor
  · rintro ⟨⟨interest, object⟩, consumed, numbered⟩
    exact ⟨interest, object, consumed, Name.numberIn?_eq_some_iff.mp numbered⟩
  · rintro ⟨interest, object, consumed, named⟩
    exact ⟨(interest, object), consumed, Name.numberIn?_eq_some_iff.mpr named⟩

theorem Event.Advances.eq {other : UInt64} (advances : event.Advances stream number)
    (also : event.Advances stream other) : number = other :=
  Option.some.inj ((advance?_eq_some_iff.mpr advances).symm.trans (advance?_eq_some_iff.mpr also))

theorem Event.Advances.consumed?_ne_none (advances : event.Advances stream number) : event.consumed? ≠ none := by
  obtain ⟨interest, object, consumed, -⟩ := advances
  simp [consumed]

theorem Event.Advances.ne_expired (advances : event.Advances stream number) (now : Timestamp) :
    event ≠ .expired now := by
  rintro rfl
  exact advances.consumed?_ne_none rfl

theorem Event.Advances.unmanaged (advances : event.Advances stream number) (request : Request) :
    event ≠ .managed request := by
  rintro rfl
  exact advances.consumed?_ne_none rfl

end Advances

variable {τ : Type}

section Histories
variable (stream : Name) (moments : List (Moment τ))

/-- The times that the flow was given by asks and by puts that look at the interests. -/
def times : Set Timestamp := {now | ∃ moment ∈ moments, moment.event = .expired now}

def deliveredOn : Set UInt64 := {number | ∃ moment ∈ moments, moment.event.Advances stream number}

def Moment.forgets (moment : Moment τ) : Bool :=
  (moment.before.lowWater? stream).isSome && (moment.after.lowWater? stream).isNone

/-- The moments after the last one that takes the mark of a stream away. -/
def sinceForgotten : List (Moment τ) := moments.rtakeWhile fun moment => !moment.forgets stream

/-- The moments up to the last one that moves a stream. -/
def untilMoved : List (Moment τ) := moments.rdropWhile fun moment => (moment.event.advance? stream).isNone

end Histories

/-- What takes the mark of a stream away, given the moments before. -/
inductive Lapse (config : FlowConfig) (stream : Name) (past : List (Moment τ)) (moment : Moment τ) : Prop where
  /-- The stream has not moved for the lifetime of an interest, and nothing is buffered under it. -/
  | idle {now touched : Timestamp} {lifetime : Duration} (expires : moment.event = .expired now)
      (limited : config.interestLifetime = some lifetime) (moved : IsGreatest (times (untilMoved stream past)) touched)
      (long : touched.ms.toNat + lifetime.millis.toNat ≤ now.ms.toNat)
      (nothing : ∀ object ∈ moment.before.buffer.values, stream.isPrefixOf object.name = false)
  | uncovered {name : Name} (removes : moment.event = .managed (.removeNamespace name))
      (registered : name ∈ moment.before.namespaces) (bare : moment.after.covers stream = false)
  | closed (closes : moment.event = .managed .close)

variable {flow before after : Flow τ} {event : Event} {stream : Name} {number : UInt64} {mark : Mark}
variable {past : List (Moment τ)} {moment : Moment τ}

/-! Histories one moment longer. -/

theorem mem_times_concat_iff {now : Timestamp} :
    now ∈ times (past ++ [moment]) ↔ now ∈ times past ∨ moment.event = .expired now := by
  simp [times, or_and_right, exists_or]

theorem mem_deliveredOn_concat_iff :
    number ∈ deliveredOn stream (past ++ [moment]) ↔
      number ∈ deliveredOn stream past ∨ moment.event.Advances stream number := by
  simp [deliveredOn, or_and_right, exists_or]

theorem forgets_iff :
    moment.forgets stream = true ↔
      (moment.before.lowWater? stream).isSome = true ∧ moment.after.marks.find? stream = none := by
  simp [Moment.forgets, lowWater?]

theorem sinceForgotten_concat (kept : moment.forgets stream = false) :
    sinceForgotten stream (past ++ [moment]) = sinceForgotten stream past ++ [moment] :=
  List.rtakeWhile_concat_pos _ _ _ (by simp [kept])

theorem sinceForgotten_concat_of_forgets (lost : moment.forgets stream = true) :
    sinceForgotten stream (past ++ [moment]) = [] :=
  List.rtakeWhile_concat_neg _ _ _ (by simp [lost])

theorem untilMoved_concat (still : ∀ number, ¬ moment.event.Advances stream number) :
    untilMoved stream (past ++ [moment]) = untilMoved stream past := by
  refine List.rdropWhile_concat_pos _ _ _ (Option.isNone_iff_eq_none.mpr ?_)
  exact Option.eq_none_iff_forall_ne_some.mpr fun number advances =>
    still number (Event.advance?_eq_some_iff.mp advances)

theorem untilMoved_concat_of_advances (advances : moment.event.Advances stream number) :
    untilMoved stream (past ++ [moment]) = past ++ [moment] :=
  List.rdropWhile_concat_neg _ _ _ (by simp [Event.advance?_eq_some_iff.mpr advances])

theorem times_mono {other : List (Moment τ)} (within : past ⊆ other) (given : (times past).Nonempty) :
    (times other).Nonempty := by
  obtain ⟨now, moment, found, expired⟩ := given
  exact ⟨now, moment, within found, expired⟩

/-! What each step does to the clock and to the mark of a stream. -/

theorem find?_expire_eq_none_iff (marked : flow.marks.find? stream = some mark) (now : Timestamp) :
    (flow.expire now).marks.find? stream = none ↔
      ∃ lifetime, flow.config.interestLifetime = some lifetime ∧
        mark.touched.ms.toNat + lifetime.millis.toNat ≤ now.ms.toNat ∧
        ∀ object ∈ flow.buffer.values, stream.isPrefixOf object.name = false := by
  obtain ⟨-, rfl⟩ := NameIndex.find?_eq_some_iff.mp marked
  cases limited : flow.config.interestLifetime with
  | none => simp [expire, limited, marked]
  | some lifetime =>
    have stale : mark.isFresh now lifetime.millis = false ↔
        mark.touched.ms.toNat + lifetime.millis.toNat ≤ now.ms.toNat := by
      rw [← Bool.not_eq_true, Mark.isFresh_iff, Timestamp.le_iff]
      omega
    have empty : flow.buffer.anyUnder mark.stream = false ↔
        ∀ object ∈ flow.buffer.values, mark.stream.isPrefixOf object.name = false := by
      simp [← Bool.not_eq_true, NameIndex.anyUnder_iff]
    simp [expire, limited, NameIndex.find?_filter, marked, Option.filter_some, stale, empty]

theorem find?_removeNamespace_eq_none_iff (marked : flow.marks.find? stream = some mark) (name : Name) :
    (flow.removeNamespace name).2.marks.find? stream = none ↔
      name ∈ flow.namespaces ∧ (flow.removeNamespace name).2.covers stream = false := by
  obtain ⟨-, rfl⟩ := NameIndex.find?_eq_some_iff.mp marked
  by_cases registered : name ∈ flow.namespaces
  · have shorter := mt (flow.length_namespaces_eq_iff name).mp (not_not.mpr registered)
    simp [removeNamespace, shorter, NameIndex.find?_filter, marked, Option.filter_some, registered, covers]
  · simp [removeNamespace_of_not_mem registered, marked, registered]

/-- What the clock and the mark of a stream say about the moments before. -/
structure Tracked (stream : Name) (past : List (Moment τ)) (flow : Flow τ) : Prop where
  now : IsGreatest (insert .zero (times past)) flow.now
  unmarked : flow.marks.find? stream = none → deliveredOn stream (sinceForgotten stream past) = ∅
  marked : ∀ mark, flow.marks.find? stream = some mark →
    IsGreatest (deliveredOn stream (sinceForgotten stream past)) mark.segment ∧
      IsGreatest (times (untilMoved stream past)) mark.touched

namespace Tracked

theorem new (config : FlowConfig) (transport : τ) (stream : Name) :
    Tracked stream [] (Flow.new config transport) where
  now := by
    refine ⟨Set.mem_insert _ _, ?_⟩
    rintro time (rfl | ⟨moment, found, -⟩)
    · exact Timestamp.zero_le _
    · exact absurd found List.not_mem_nil
  unmarked _ := by simp [deliveredOn, sinceForgotten]
  marked _ found := absurd found (by simp [Flow.new, NameIndex.find?_eq])

theorem now_of_nonempty (tracked : Tracked stream past flow) (given : (times past).Nonempty) :
    IsGreatest (times past) flow.now := by
  obtain ⟨reached, bound⟩ := tracked.now
  refine ⟨?_, fun now found => bound (Or.inr found)⟩
  rcases reached with zero | found
  · obtain ⟨now, found⟩ := given
    have below := bound (Or.inr found)
    rw [zero] at below ⊢
    exact Timestamp.le_antisymm below (Timestamp.zero_le now) ▸ found
  · exact found

theorem lowWater?_eq_some_iff (tracked : Tracked stream past flow) :
    flow.lowWater? stream = some number ↔ IsGreatest (deliveredOn stream (sinceForgotten stream past)) number := by
  cases marked : flow.marks.find? stream with
  | none =>
    have empty := tracked.unmarked marked
    simp [lowWater?, marked, empty, IsGreatest]
  | some mark =>
    have greatest := (tracked.marked mark marked).1
    simp only [lowWater?, marked, Option.map_some, Option.some.injEq]
    constructor
    · rintro rfl
      exact greatest
    · intro also
      exact UInt64.le_antisymm (also.2 greatest.1) (greatest.2 also.1)

theorem lowWater?_eq_none_iff (tracked : Tracked stream past flow) :
    flow.lowWater? stream = none ↔ deliveredOn stream (sinceForgotten stream past) = ∅ := by
  cases marked : flow.marks.find? stream with
  | none => simp [lowWater?, marked, tracked.unmarked marked]
  | some mark =>
    have found := (tracked.marked mark marked).1.1
    simp only [lowWater?, marked, Option.map_some, reduceCtorEq, false_iff]
    exact Set.nonempty_iff_ne_empty.mp ⟨_, found⟩

end Tracked

variable [Transport τ]

namespace Step

theorem now_cases (step : before.Step event after) :
    (∃ now, event = .expired now ∧ after.now = before.now.latest now) ∨
      (∀ now, event ≠ .expired now) ∧ after.now = before.now := by
  cases step with
  | expire now => exact Or.inl ⟨now, rfl, rfl⟩
  | addNamespace => exact Or.inr ⟨by simp, by unfold Flow.addNamespace; split <;> rfl⟩
  | removeNamespace => exact Or.inr ⟨by simp, by unfold Flow.removeNamespace; simp only; split <;> rfl⟩
  | deliver => exact Or.inr ⟨by simp, by unfold forward; split <;> rfl⟩
  | answer => exact Or.inr ⟨by simp, by unfold forward; split <;> rfl⟩
  | _ => exact Or.inr ⟨by simp, rfl⟩

theorem now_le (step : before.Step event after) : before.now ≤ after.now := by
  rcases step.now_cases with ⟨now, -, later⟩ | ⟨-, same⟩
  · rw [later]
    exact Timestamp.left_le_latest _ _
  · rw [same]
    exact Timestamp.le_refl _

theorem find?_eq_none_iff (step : before.Step event after) (marked : before.marks.find? stream = some mark) :
    after.marks.find? stream = none ↔
      (∃ now lifetime, event = .expired now ∧ before.config.interestLifetime = some lifetime ∧
        mark.touched.ms.toNat + lifetime.millis.toNat ≤ now.ms.toNat ∧
        ∀ object ∈ before.buffer.values, stream.isPrefixOf object.name = false) ∨
      (∃ name, event = .managed (.removeNamespace name) ∧ name ∈ before.namespaces ∧ after.covers stream = false) ∨
      event = .managed .close := by
  have kept : ∀ object transport, (before.forward object transport).marks.find? stream ≠ none := by
    intro object transport
    rw [find?_forward, marked]
    split
    · split <;> simp
    · simp
  have held : before.marks.find? stream ≠ none := by simp [marked]
  cases step with
  | expire now => simpa using find?_expire_eq_none_iff marked now
  | removeNamespace name => simpa using find?_removeNamespace_eq_none_iff marked name
  | close => simp [Flow.close, NameIndex.find?_eq]
  | deliver => simpa using kept _ _
  | answer => simpa using kept _ _
  | addNamespace => simp [marked]
  | _ => exact iff_of_false held (by simp)

theorem marks_eq_of_failed (step : before.Step event after) {object : ContentObject}
    (failed : event = .refused object ∨ ∃ interest, event = .withheld interest object) : after.marks = before.marks := by
  cases step with
  | refuse => rfl
  | withhold => rfl
  | _ => simp at failed

end Step

/-! Marks along a history. -/

theorem mem_times_moments_iff {request : Request} {now : Timestamp} :
    now ∈ times (flow.moments request) ↔
      (∃ interests, request = .ask interests now) ∨ ∃ object, request = .put object now ∧ flow.weighs object = true := by
  cases request with
  | put object given =>
    have other : ∀ admitted outcome, putEvent object admitted outcome ≠ .expired now := by
      intro admitted outcome
      unfold putEvent
      split <;> simp
    cases weighs : flow.weighs object <;> simp [times, moments, putMoments, weighs, other]
  | ask interests given =>
    have other : ∀ moment ∈ (flow.expire given).askMoments given interests, moment.event ≠ .expired now := by
      intro moment found expired
      obtain ⟨interest, -, asked⟩ := asked_of_mem_askMoments found
      rw [expired] at asked
      exact absurd asked (by simp [Event.asked?])
    simpa [times, moments] using fun moment found expired => absurd expired (other moment found)
  | _ => simp [times, moments]

-- A request that lets something go out for an interest starts with the time.
theorem moments_cases (flow : Flow τ) (request : Request) :
    (∃ now after rest, flow.moments request = ⟨flow, .expired now, after⟩ :: rest) ∨
      ∀ moment ∈ flow.moments request, moment.event.consumed? = none := by
  cases request with
  | put object now =>
    obtain ⟨same, judged⟩ := flow.admission_cases object now
    cases weighs : flow.weighs object with
    | true => exact Or.inl ⟨now, (flow.admission object now).2, _, by simp only [moments, putMoments, if_pos weighs]; rfl⟩
    | false =>
      rw [weighs, if_neg (by simp)] at same
      have silent : ∀ outcome, (putEvent object (flow.admission object now).1 outcome).consumed? = none := by
        rw [same] at judged
        intro outcome
        generalize (flow.admission object now).1 = answer at judged
        cases judged with
        | deliver looks => exact absurd (weighs.symm.trans looks) (by simp)
        | bypass => cases outcome <;> rfl
        | buffer => cases outcome <;> rfl
        | _ => rfl
      exact Or.inr (by simp [moments, putMoments, weighs, silent])
  | ask interests now => exact Or.inl ⟨now, _, _, rfl⟩
  | _ => simp [moments, Event.consumed?]

-- Nothing goes out before the flow has been given the time.
theorem times_nonempty {requests : List Request} {later : List (Moment τ)}
    (divided : flow.history requests = past ++ moment :: later) (advances : moment.event.Advances stream number) :
    (times past).Nonempty := by
  obtain ⟨earlier, inside, rest, reached, request, rfl, within⟩ := exists_moments_of_history divided
  refine times_mono (List.subset_append_right _ _) ?_
  rcases reached.moments_cases request with ⟨now, after, others, starts⟩ | silent
  · cases inside with
    | nil =>
      obtain ⟨rfl, -⟩ := List.cons.inj (starts.symm.trans within)
      exact absurd rfl advances.consumed?_ne_none
    | cons head tail =>
      obtain ⟨rfl, -⟩ := List.cons.inj (starts.symm.trans within)
      exact ⟨now, _, List.mem_cons_self, rfl⟩
  · have listed : moment ∈ reached.moments request := within ▸ List.mem_append_right _ List.mem_cons_self
    exact absurd (silent moment listed) advances.consumed?_ne_none

namespace Tracked

theorem now_concat (tracked : Tracked stream past moment.before)
    (step : moment.before.Step moment.event moment.after) :
    IsGreatest (insert .zero (times (past ++ [moment]))) moment.after.now := by
  obtain ⟨reached, bound⟩ := tracked.now
  rcases step.now_cases with ⟨now, expires, moved⟩ | ⟨other, same⟩
  · rw [moved]
    refine ⟨?_, ?_⟩
    · rcases moment.before.now.latest_cases now with earlier | later
      · rw [earlier]
        exact reached.imp id fun found => mem_times_concat_iff.mpr (Or.inl found)
      · rw [later]
        exact Or.inr (mem_times_concat_iff.mpr (Or.inr expires))
    · obtain ⟨above, given⟩ := Timestamp.latest_le_iff.mp (Timestamp.le_refl (moment.before.now.latest now))
      rintro time (rfl | found)
      · exact Timestamp.zero_le _
      · rcases mem_times_concat_iff.mp found with earlier | last
        · exact Timestamp.le_trans (bound (Or.inr earlier)) above
        · exact Event.expired.inj (expires.symm.trans last) ▸ given
  · have sameTimes : times (past ++ [moment]) = times past :=
      Set.ext fun now => mem_times_concat_iff.trans (or_iff_left (other now))
    rw [same, sameTimes]
    exact tracked.now

theorem advanced (tracked : Tracked stream past moment.before)
    (step : moment.before.Step moment.event moment.after) (advances : moment.event.Advances stream number)
    (timed : (times past).Nonempty) : Tracked stream (past ++ [moment]) moment.after := by
  have written := step.find?_of_advances advances
  have kept : moment.forgets stream = false := by simp [Moment.forgets, lowWater?, written]
  refine ⟨tracked.now_concat step, fun unmarked => absurd (written.symm.trans unmarked) (by simp), ?_⟩
  intro mark found
  obtain rfl : moment.before.advance stream number = mark := Option.some.inj (written.symm.trans found)
  rw [sinceForgotten_concat kept, untilMoved_concat_of_advances advances]
  refine ⟨⟨?_, ?_⟩, ?_⟩
  · rw [mem_deliveredOn_concat_iff]
    rcases moment.before.advance_cases stream number with moved | stays
    · exact Or.inr (moved.symm ▸ advances)
    · obtain ⟨held, marked, same⟩ := Option.map_eq_some_iff.mp stays
      exact Or.inl (same ▸ (tracked.marked held marked).1.1)
  · intro other delivered
    rw [UInt64.le_iff_toNat_le]
    rcases mem_deliveredOn_concat_iff.mp delivered with earlier | last
    · cases marked : moment.before.marks.find? stream with
      | none => exact absurd earlier (by simp [tracked.unmarked marked])
      | some held =>
        have below := UInt64.le_iff_toNat_le.mp ((tracked.marked held marked).1.2 earlier)
        have highest := toNat_advance (congrArg (Option.map Mark.segment) marked) number
        rw [highest]
        exact Nat.le_trans below (Nat.le_max_right _ _)
    · exact last.eq advances ▸ moment.before.le_advance stream number
  · have sameTimes : times (past ++ [moment]) = times past :=
      Set.ext fun now => mem_times_concat_iff.trans (or_iff_left (advances.ne_expired now))
    rw [sameTimes]
    exact tracked.now_of_nonempty timed

theorem still (tracked : Tracked stream past moment.before)
    (step : moment.before.Step moment.event moment.after) (still : ∀ number, ¬ moment.event.Advances stream number) :
    Tracked stream (past ++ [moment]) moment.after := by
  have sameUntil : untilMoved stream (past ++ [moment]) = untilMoved stream past := untilMoved_concat still
  have now := tracked.now_concat step
  cases lost : moment.forgets stream with
  | true =>
    have gone := (forgets_iff.mp lost).2
    refine ⟨now, fun _ => ?_, fun mark found => absurd (gone.symm.trans found) (by simp)⟩
    rw [sinceForgotten_concat_of_forgets lost]
    simp [deliveredOn]
  | false =>
    have same : moment.after.marks.find? stream = moment.before.marks.find? stream := by
      rcases step.find?_cases still with same | gone
      · exact same
      · cases marked : moment.before.marks.find? stream with
        | none => exact gone
        | some mark => exact absurd lost (by simp [Moment.forgets, lowWater?, marked, gone])
    have sameDelivered : deliveredOn stream (sinceForgotten stream (past ++ [moment]))
        = deliveredOn stream (sinceForgotten stream past) := by
      rw [sinceForgotten_concat lost]
      exact Set.ext fun number => mem_deliveredOn_concat_iff.trans (or_iff_left (still number))
    refine ⟨now, ?_, ?_⟩
    · rw [same, sameDelivered]
      exact tracked.unmarked
    · rw [same, sameDelivered, sameUntil]
      exact tracked.marked

theorem step (tracked : Tracked stream past moment.before) (step : moment.before.Step moment.event moment.after)
    (timed : ∀ number, moment.event.Advances stream number → (times past).Nonempty) :
    Tracked stream (past ++ [moment]) moment.after := by
  by_cases moves : ∃ number, moment.event.Advances stream number
  · obtain ⟨number, advances⟩ := moves
    exact tracked.advanced step advances (timed number advances)
  · exact tracked.still step (not_exists.mp moves)

theorem forgets_iff_lapse {config : FlowConfig} (tracked : Tracked stream past moment.before)
    (limit : moment.before.config.interestLifetime = config.interestLifetime)
    (step : moment.before.Step moment.event moment.after) :
    moment.forgets stream = true ↔
      (moment.before.lowWater? stream).isSome = true ∧ Lapse config stream past moment := by
  rw [forgets_iff]
  refine and_congr_right fun present => ?_
  obtain ⟨mark, marked⟩ := Option.isSome_iff_exists.mp (Option.isSome_map.symm.trans present)
  have moved := (tracked.marked mark marked).2
  rw [step.find?_eq_none_iff marked, limit]
  constructor
  · rintro (⟨now, lifetime, expires, limited, long, nothing⟩ | ⟨name, removes, registered, bare⟩ | closes)
    · exact .idle expires limited moved long nothing
    · exact .uncovered removes registered bare
    · exact .closed closes
  · intro lapse
    cases lapse with
    | @idle now touched lifetime expires limited also long nothing =>
      have same : mark.touched = touched := Timestamp.le_antisymm (also.2 moved.1) (moved.2 also.1)
      exact Or.inl ⟨now, lifetime, expires, limited, same ▸ long, nothing⟩
    | uncovered removes registered bare => exact Or.inr (Or.inl ⟨_, removes, registered, bare⟩)
    | closed closes => exact Or.inr (Or.inr closes)

end Tracked

-- The moments of a run, up to any of them, are what the flow says they are.
theorem Trail.tracked {config : FlowConfig} {transport : τ} {requests : List Request} {moments : List (Moment τ)}
    {final : Flow τ} (trail : Trail (Flow.new config transport) moments final)
    (begins : moments <+: (Flow.new config transport).history requests) (stream : Name) :
    Tracked stream moments final := by
  refine trail.carries (List.nil_append _).symm (Tracked stream) (.new config transport stream) ?_
  intro past later moment divided step tracked
  obtain ⟨rest, whole⟩ := begins
  rw [divided, List.append_assoc, List.cons_append] at whole
  exact tracked.step step fun _ advances => times_nonempty whole.symm advances

/-- The mark of a stream is exact. It is the greatest number that has gone out
for an interest since the mark was last forgotten, and there is none if nothing
has. A moment takes it away only for one of the reasons of a lapse, and then it
does; any other moment keeps it or raises it, and an object that the transport
refuses moves no mark. -/
theorem lowWater_is_exact (config : FlowConfig) (transport : τ) (requests : List Request) (stream : Name) :
    let history := (Flow.new config transport).history requests
    let final := ((Flow.new config transport).run requests).2
    let delivered := deliveredOn stream (sinceForgotten stream history)
    (∀ number, final.lowWater? stream = some number ↔ IsGreatest delivered number) ∧
    (final.lowWater? stream = none ↔ delivered = ∅) ∧
    ∀ past moment later, history = past ++ moment :: later →
      (moment.forgets stream = true ↔
        (moment.before.lowWater? stream).isSome = true ∧ Lapse config stream past moment) ∧
      (moment.forgets stream = false → ∀ number, moment.before.lowWater? stream = some number →
        ∃ higher, moment.after.lowWater? stream = some higher ∧ number ≤ higher) ∧
      ∀ object, (moment.event = .refused object ∨ ∃ interest, moment.event = .withheld interest object) →
        moment.after.marks = moment.before.marks := by
  intro history final delivered
  have trail := (Flow.new config transport).trail_history requests
  have tracked := trail.tracked (List.prefix_refl _) stream
  refine ⟨fun number => tracked.lowWater?_eq_some_iff, tracked.lowWater?_eq_none_iff, ?_⟩
  intro past moment later divided
  change (Flow.new config transport).history requests = past ++ moment :: later at divided
  rw [divided] at trail
  obtain ⟨reached, step, -⟩ := trail.at_moment
  have before := reached.tracked ⟨moment :: later, divided.symm⟩ stream
  refine ⟨before.forgets_iff_lapse reached.lifetime step, ?_, fun object => step.marks_eq_of_failed⟩
  intro kept number marked
  have remembered : (moment.after.lowWater? stream).isSome = true := by
    simpa [Moment.forgets, marked, Option.isSome_iff_ne_none] using kept
  obtain ⟨higher, found, above⟩ := step.lowWater?_mono marked remembered
  exact ⟨higher, found, UInt64.le_iff_toNat_le.mpr above⟩

/-- A mark stands for a segment that the transport has taken of what it was handed. -/
theorem taken_of_lowWater? {config : FlowConfig} {transport : τ} {requests : List Request}
    (marked : ((Flow.new config transport).run requests).2.lowWater? stream = some number) :
    ∃ object, object.name = stream.segment number ∧
      object ∈ (offer transport (((Flow.new config transport).history requests).filterMap (·.event.handed?))).1 := by
  have tracked := ((Flow.new config transport).trail_history requests).tracked (List.prefix_refl _) stream
  obtain ⟨moment, since, advances⟩ := (tracked.lowWater?_eq_some_iff.mp marked).1
  have passed : moment ∈ (Flow.new config transport).history requests := (List.rtakeWhile_suffix _ _).subset since
  obtain ⟨interest, object, consumed, named⟩ := advances
  have taken := congrArg Prod.fst ((Flow.new config transport).offer_history requests)
  refine ⟨object, named, (congrArg (object ∈ ·) taken).mpr ?_⟩
  exact List.mem_filterMap.mpr ⟨moment, passed, Event.accepted?_of_consumed? consumed⟩

namespace Sample

/-- The mark at 3 is forgotten before segment 1 is asked for and comes. -/
def relapse : List Request :=
  [.addNamespace Sample.stream, .put (segment 3) ⟨1000⟩, .ask [exactly 3] ⟨1000⟩, .ask [exactly 1] ⟨5000⟩,
    .put (segment 1) ⟨5000⟩]

def lull : Moment (List ContentObject) := (fresh.history relapse).get ⟨5, by decide +kernel⟩

end Sample

open Flow.Sample in
/-- The stream ends at 1, the greatest number since it was forgotten for its age. -/
theorem relapse_restarts_at_one :
    fresh.history relapse = (fresh.history relapse).take 5 ++ lull :: (fresh.history relapse).drop 6 ∧
      lull.forgets Sample.stream = true ∧ Lapse .standard Sample.stream ((fresh.history relapse).take 5) lull ∧
      (fresh.run relapse).2.lowWater? Sample.stream = some 1 ∧
      IsGreatest (deliveredOn Sample.stream (sinceForgotten Sample.stream (fresh.history relapse))) 1 := by
  have divided : fresh.history relapse = (fresh.history relapse).take 5 ++ lull :: (fresh.history relapse).drop 6 := by
    simp [lull]
  have forgets : lull.forgets Sample.stream = true := by decide +kernel
  have ends : (fresh.run relapse).2.lowWater? Sample.stream = some 1 := by decide +kernel
  obtain ⟨greatest, -, along⟩ := lowWater_is_exact .standard ([] : List ContentObject) relapse Sample.stream
  have lapses := ((along _ _ _ divided).1.mp forgets).2
  exact ⟨divided, forgets, lapses, ends, (greatest 1).mp ends⟩

end Flow

end NamedContent
