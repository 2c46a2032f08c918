import NamedContent.Proofs.Flow.Progress
import NamedContent.Proofs.Flow.Ranking
import NamedContent.Proofs.Flow.Waiting

/-! How long an interest lives.

A batch of interests gives each one that it keeps the same deadline. From then
on the interest waits until a put before the deadline goes to it, until the flow
forgets it at a time that is not before the deadline, or until the close. That
the times given may go back changes nothing: whatever looks at the pending
interests forgets first, as of the time that it is given itself. -/

set_option autoImplicit false

namespace NamedContent

/-- The time a lifetime later in whole milliseconds, or the last time there is. -/
def Timestamp.deadline (joined : Timestamp) (lifetime : Duration) : Timestamp :=
  ⟨UInt64.ofNat
    (min (joined.ms.toNat + (lifetime.seconds.toNat * 1000 + lifetime.nanos.val / 1000000)) (2 ^ 64 - 1))⟩

-- It makes no difference that the lifetime itself stops at the greatest word.
theorem Timestamp.add_millis (joined : Timestamp) (lifetime : Duration) :
    joined.add lifetime.millis = joined.deadline lifetime := by
  have greatest : Word.greatest = 2 ^ 64 - 1 := rfl
  rw [add, deadline, Word.add, Word.clamp, Duration.millis, Word.toNat_clamp, greatest]
  congr 2
  omega

theorem Pending.isLive_iff {pending : Pending} {now : Timestamp} :
    pending.isLive now = true ↔ ∀ deadline, pending.deadline = some deadline → now < deadline := by
  cases due : pending.deadline <;> simp [isLive, due]

theorem Pending.isLive_eq_false_iff {pending : Pending} {now : Timestamp} :
    pending.isLive now = false ↔ ∃ deadline, pending.deadline = some deadline ∧ deadline ≤ now := by
  cases due : pending.deadline with
  | none => simp [isLive, due]
  | some deadline =>
    have order : ¬ now < deadline ↔ deadline ≤ now := UInt64.not_lt
    simpa [isLive, due] using order

namespace Flow

theorem Event.redeemed?_eq_some_iff {event : Event} {number : Nat} :
    event.redeemed? = some number ↔
      ∃ object candidate, event = .delivered object candidate ∧ candidate.pending.seq = number := by
  cases event <;> simp [redeemed?]

variable {τ : Type} {flow : Flow τ} {interest : Interest} {pending : Pending} {now : Timestamp}

/-- The time as of which a request makes the flow forget by age. Every batch of
interests does, and every put that gets as far as the pending interests. -/
def forgetsAt? (flow : Flow τ) : Request → Option Timestamp
  | .put object now => if flow.weighs object then some now else none
  | .ask _ now => some now
  | _ => none

variable [Transport τ]

structure Gives (flow : Flow τ) (object : ContentObject) (now : Timestamp) (candidate : Candidate) : Prop where
  delivered : (flow.put object now).1 = .ok .delivered
  best : (flow.expire now).bestPending? object = some candidate

structure Registers (flow : Flow τ) (interests : List Interest) (joined : Timestamp) (interest : Interest)
    (pending : Pending) : Prop where
  new : Entry.interest interest pending ∉ flow.pending.toList
  waits : Entry.interest interest pending ∈ (flow.ask interests joined).2.pending.toList

def Expires (flow : Flow τ) (pending : Pending) (request : Request) : Prop :=
  ∃ now deadline, flow.forgetsAt? request = some now ∧ pending.deadline = some deadline ∧ deadline ≤ now

inductive Ends (flow : Flow τ) (interest : Interest) (pending : Pending) : Request → Prop where
  | consumed {object : ContentObject} {now : Timestamp} (gives : flow.Gives object now ⟨interest, pending⟩)
      (early : ∀ deadline, pending.deadline = some deadline → now < deadline) :
      Ends flow interest pending (.put object now)
  | expired {request : Request} (expires : flow.Expires pending request) : Ends flow interest pending request
  | closed : Ends flow interest pending .close

variable {start final : Flow τ} {moments past : List (Moment τ)}

/-! What a trail leaves of those that wait. -/

theorem Step.nextSeq_le {before after : Flow τ} {event : Event} (step : before.Step event after) :
    before.nextSeq ≤ after.nextSeq := by
  have numbers := congrArg List.length step.range_nextSeq
  rw [List.length_append, List.length_range, List.length_range] at numbers
  omega

theorem Trail.nextSeq_le (trail : Trail start moments final) : start.nextSeq ≤ final.nextSeq :=
  trail.keeps (start.nextSeq ≤ ·.nextSeq) (Nat.le_refl _) fun step reached => Nat.le_trans reached step.nextSeq_le

theorem Trail.waited (trail : Trail start moments final) (wellFormed : start.pending.WellFormed)
    (quiet : ∀ moment ∈ moments, moment.event ≠ .registered interest)
    (waits : Entry.interest interest pending ∈ final.pending.toList) :
    Entry.interest interest pending ∈ start.pending.toList := by
  induction trail with
  | still => exact waits
  | move step later ih =>
    obtain ⟨first, others⟩ := List.forall_mem_cons.mp quiet
    have next := ih (step.wellFormed wellFormed) others waits
    exact (step.waits_cases wellFormed next).resolve_right first

theorem Trail.stays_away (trail : Trail start moments final) (wellFormed : start.pending.WellFormed)
    (number : pending.seq < start.nextSeq) (gone : Entry.interest interest pending ∉ start.pending.toList) :
    Entry.interest interest pending ∉ final.pending.toList := by
  induction trail with
  | still => exact gone
  | move step later ih =>
    refine ih (step.wellFormed wellFormed) (Nat.lt_of_lt_of_le number step.nextSeq_le) fun back => ?_
    rcases step.entered_cases wellFormed back with earlier | ⟨asked, deadline, -, same⟩
    · exact gone earlier
    · obtain ⟨-, rfl⟩ := Entry.interest.inj same
      exact Nat.lt_irrefl _ number

theorem Trail.remains_iff (trail : Trail start moments final) (held : Numbered past start)
    (waits : Entry.interest interest pending ∈ start.pending.toList) :
    Entry.interest interest pending ∈ final.pending.toList ↔ ∀ moment ∈ moments, moment.event.Spares pending := by
  induction trail generalizing past with
  | still => exact iff_of_true waits (by simp)
  | @move before after final event rest step later ih =>
    have next : Numbered (past ++ [⟨before, event, after⟩]) after := held.step step
    rw [List.forall_mem_cons]
    by_cases spares : event.Spares pending
    · rw [ih next ((step.remains_iff held waits).mpr spares)]
      exact (and_iff_right spares).symm
    · have gone := mt (step.remains_iff held waits).mp spares
      have number : pending.seq < before.nextSeq := held.number_lt (List.mem_map_of_mem waits)
      have away := later.stays_away next.wellFormed (Nat.lt_of_lt_of_le number step.nextSeq_le) gone
      exact iff_of_false away fun spared => spares spared.1

/-! What one request does. -/

theorem askOne_cases (flow : Flow τ) (interest : Interest) (now : Timestamp) :
    (flow.askOne interest now).2 = flow.register interest now ∨
      (flow.askOne interest now).2.pending = flow.pending ∧ (flow.askOne interest now).2.nextSeq = flow.nextSeq ∧
        (flow.askOne interest now).2.config = flow.config := by
  cases ignored : flow.ignores interest with
  | true => exact Or.inr (by simp [askOne, ignored])
  | false =>
    cases best : flow.bestBuffered? interest with
    | none => exact Or.inl (by simp [askOne, ignored, best])
    | some object =>
      rw [flow.askOne_eq now ignored best]
      rcases flow.deliver_cases object with ⟨fault, transport, -, result⟩ | ⟨transport, -, result⟩
      · exact Or.inr (by simp [result])
      · exact Or.inr (by simp [result])

theorem askOne_entered (wellFormed : flow.pending.WellFormed) {asked : Interest}
    (waits : Entry.interest interest pending ∈ (flow.askOne asked now).2.pending.toList) :
    Entry.interest interest pending ∈ flow.pending.toList ∨ interest = asked ∧ flow.nextSeq ≤ pending.seq ∧
      pending.deadline = flow.config.interestLifetime.map now.deadline := by
  rcases flow.askOne_cases asked now with kept | ⟨same, -⟩
  · rw [kept, mem_register_iff wellFormed] at waits
    refine waits.imp_right ?_
    rintro ⟨rfl, rfl⟩
    simp [Timestamp.add_millis]
  · exact Or.inl (same ▸ waits)

theorem askEach_entered (wellFormed : flow.pending.WellFormed) {interests : List Interest} {answered : Nat}
    (waits : Entry.interest interest pending ∈ (flow.askEach now answered interests).2.pending.toList) :
    Entry.interest interest pending ∈ flow.pending.toList ∨ interest ∈ interests ∧ flow.nextSeq ≤ pending.seq ∧
      pending.deadline = flow.config.interestLifetime.map now.deadline := by
  induction interests generalizing flow answered with
  | nil => exact Or.inl waits
  | cons first rest ih =>
    have step := flow.step_askOne first now
    have here : Entry.interest interest pending ∈ (flow.askOne first now).2.pending.toList → _ :=
      askOne_entered wellFormed
    cases reply : flow.askOne first now with
    | mk answer after =>
      rw [reply] at step here
      have listed : interest = first → interest ∈ first :: rest := fun same => List.mem_cons.mpr (Or.inl same)
      cases answer with
      | error failure =>
        simp only [askEach, reply] at waits
        exact (here waits).imp_right (And.imp_left listed)
      | ok hit =>
        simp only [askEach, reply] at waits
        rcases ih (step.wellFormed wellFormed) waits with earlier | ⟨member, number, deadline⟩
        · exact (here earlier).imp_right (And.imp_left listed)
        · refine Or.inr ⟨List.mem_cons_of_mem _ member, Nat.le_trans step.nextSeq_le number, ?_⟩
          rw [deadline, step.lifetime]

-- A batch registers interests of its own, with the next numbers and with its deadline.
theorem Registers.spec (wellFormed : flow.pending.WellFormed) {interests : List Interest} {joined : Timestamp}
    (registers : flow.Registers interests joined interest pending) :
    interest ∈ interests ∧ flow.nextSeq ≤ pending.seq ∧
      pending.deadline = flow.config.interestLifetime.map joined.deadline := by
  have forgotten : Entry.interest interest pending ∉ (flow.expire joined).pending.toList := fun member =>
    registers.new ((Table.mem_filter_iff wellFormed).mp member).1
  exact (askEach_entered (wellFormed.filter _) registers.waits).resolve_left forgotten

theorem registers_of_handle (wellFormed : flow.pending.WellFormed) {request : Request}
    (new : Entry.interest interest pending ∉ flow.pending.toList)
    (waits : Entry.interest interest pending ∈ (flow.handle request).2.pending.toList) :
    ∃ interests joined, request = .ask interests joined ∧ flow.Registers interests joined interest pending := by
  have trail := flow.trail_moments request
  cases request with
  | ask interests joined => exact ⟨interests, joined, rfl, new, waits⟩
  | put object now =>
    refine absurd (trail.waited wellFormed (fun moment found registered => ?_) waits) new
    have quiet := (quiet_of_mem_putMoments found).1
    rw [registered] at quiet
    exact absurd quiet (by simp [Event.asked?])
  | _ => exact absurd (trail.waited wellFormed (by simp [moments]) waits) new

/-! Which requests end a wait. -/

namespace Gives

variable {object : ContentObject} {candidate : Candidate}

theorem waited (wellFormed : flow.pending.WellFormed) (gives : flow.Gives object now candidate) :
    Entry.interest candidate.interest candidate.pending ∈ flow.pending.toList ∧
      candidate.pending.isLive now = true := by
  have waits := (waiting_of_bestPending? (wellFormed.filter _) gives.best).1
  exact (Table.mem_filter_iff wellFormed).mp waits

theorem not_mem_put (held : Numbered past flow) (gives : flow.Gives object now candidate) :
    Entry.interest candidate.interest candidate.pending ∉ (flow.put object now).2.pending.toList := by
  obtain ⟨chosen, best, removed⟩ := pending_put_delivered (Prod.ext gives.delivered rfl)
  obtain rfl := Option.some.inj (gives.best.symm.trans best)
  have wellFormed : (flow.expire now).pending.WellFormed := held.wellFormed.filter _
  have distinct := held.distinct_expire now
  rw [removed, Table.toList_removeInterest wellFormed distinct (waiting_of_bestPending? wellFormed best).1]
  exact distinct.not_mem_erase

end Gives

theorem mem_times_moments {request : Request} :
    now ∈ times (flow.moments request) ↔ flow.forgetsAt? request = some now := by
  rw [mem_times_moments_iff]
  cases request <;> simp [forgetsAt?, and_comm]

theorem gives_of_putEvent {object sent : ContentObject} {candidate : Candidate}
    (put : putEvent object (flow.admission object now).1 (flow.put object now).1 = .delivered sent candidate) :
    flow.Gives object now candidate := by
  obtain ⟨weighing, judged⟩ := flow.admission_cases object now
  cases admitted : flow.admission object now with
  | mk answer weighed =>
    simp only [Flow.put, admitted] at put weighing judged
    cases judged with
    | closed | outside | full => exact absurd put (by simp [putEvent])
    | bypass => cases reply : (weighed.commit object .bypass).1 <;> simp [putEvent, reply] at put
    | buffer => exact absurd put (by simp [commit, putEvent])
    | @deliver chosen looks best =>
      obtain rfl : weighed = flow.expire now := by
        split at weighing
        · exact weighing
        · rename_i blind
          exact absurd (weighing ▸ looks) blind
      rcases (flow.expire now).deliver_cases object with ⟨fault, transport, -, result⟩ | ⟨transport, -, result⟩
      · exact absurd put (by simp [commit, result, putEvent])
      · obtain ⟨-, rfl⟩ : _ ∧ chosen = candidate := by simpa [commit, result, putEvent] using put
        exact ⟨by simp [Flow.put, admitted, commit, result], best⟩

theorem gives_of_mem_moments {request : Request} {sent : ContentObject} {candidate : Candidate} {moment : Moment τ}
    (found : moment ∈ flow.moments request) (delivered : moment.event = .delivered sent candidate) :
    ∃ object now, request = .put object now ∧ flow.Gives object now candidate := by
  cases request with
  | put object now =>
    refine ⟨object, now, rfl, ?_⟩
    rcases List.mem_append.mp found with expired | put
    · split at expired
      · rw [List.mem_singleton.mp expired] at delivered
        exact absurd delivered (by simp)
      · exact absurd expired List.not_mem_nil
    · rw [List.mem_singleton.mp put] at delivered
      exact gives_of_putEvent delivered
  | ask interests now =>
    rcases List.mem_cons.mp found with rfl | asked
    · exact absurd delivered (by simp)
    · obtain ⟨interest, -, asked⟩ := asked_of_mem_askMoments asked
      rw [delivered] at asked
      exact absurd asked (by simp [Event.asked?])
  | _ =>
    rw [List.mem_singleton.mp found] at delivered
    exact absurd delivered (by simp)

theorem remains_handle_iff (held : Numbered past flow) (request : Request)
    (waits : Entry.interest interest pending ∈ flow.pending.toList) :
    Entry.interest interest pending ∈ (flow.handle request).2.pending.toList ↔
      ¬ flow.Ends interest pending request := by
  have spared_iff := (flow.trail_moments request).remains_iff held waits
  constructor
  · intro stays ends
    have spared := spared_iff.mp stays
    cases ends with
    | consumed gives early => exact gives.not_mem_put held stays
    | expired expires =>
      obtain ⟨now, deadline, given, due, late⟩ := expires
      have gone : pending.isLive now = false := Pending.isLive_eq_false_iff.mpr ⟨deadline, due, late⟩
      obtain ⟨moment, found, expired⟩ := mem_times_moments.mpr given
      exact absurd (((spared moment found).early now expired).symm.trans gone) (by simp)
    | closed => exact (spared _ (List.mem_singleton.mpr rfl)).opened rfl
  · intro unended
    refine spared_iff.mpr fun moment found => ⟨?_, ?_, ?_⟩
    · intro closes
      exact unended (managed_of_mem_moments found closes ▸ .closed)
    · intro used
      obtain ⟨sent, candidate, delivered, number⟩ := Event.redeemed?_eq_some_iff.mp used
      obtain ⟨object, now, rfl, gives⟩ := gives_of_mem_moments found delivered
      obtain ⟨chosen, live⟩ := gives.waited held.wellFormed
      obtain rfl : candidate = ⟨interest, pending⟩ :=
        Candidate.eq_of_entry_eq (List.inj_on_of_nodup_map held.seqs_nodup chosen waits number)
      exact unended (.consumed gives (Pending.isLive_iff.mp live))
    · intro now expired
      by_contra late
      obtain ⟨deadline, due, before⟩ := Pending.isLive_eq_false_iff.mp (Bool.eq_false_iff.mpr late)
      exact unended (.expired ⟨now, deadline, mem_times_moments.mp ⟨moment, found, expired⟩, due, before⟩)

/-! Runs. -/

theorem Trail.numbered_append (trail : Trail start moments final) (held : Numbered past start) :
    Numbered (past ++ moments) final :=
  trail.carries rfl Numbered held fun _ step held => held.step step

-- What holds of every division of a list holds of its head and of every division of the rest.
theorem forall_divisions_cons {α : Type} {first : α} {others : List α} {holds : List α → α → Prop} :
    (∀ front value back, first :: others = front ++ value :: back → holds front value) ↔
      holds [] first ∧ ∀ front value back, others = front ++ value :: back → holds (first :: front) value := by
  constructor
  · intro every
    refine ⟨every [] first others rfl, fun front value back same => every (first :: front) value back ?_⟩
    rw [same, List.cons_append]
  · rintro ⟨here, later⟩ front value back same
    cases front with
    | nil =>
      obtain ⟨rfl, -⟩ := List.cons.inj same
      exact here
    | cons head front =>
      obtain ⟨rfl, rest⟩ := List.cons.inj same
      exact later front value back rest

theorem remains_run_iff (held : Numbered past flow) (later : List Request)
    (waits : Entry.interest interest pending ∈ flow.pending.toList) :
    Entry.interest interest pending ∈ (flow.run later).2.pending.toList ↔
      ∀ front request back, later = front ++ request :: back → ¬ (flow.run front).2.Ends interest pending request := by
  induction later generalizing flow past with
  | nil => exact iff_of_true waits (by simp)
  | cons request rest ih =>
    have next := (flow.trail_moments request).numbered_append held
    have here := remains_handle_iff held request waits
    rw [forall_divisions_cons]
    by_cases ends : flow.Ends interest pending request
    · have gone := mt here.mp (not_not_intro ends)
      have number : pending.seq < (flow.handle request).2.nextSeq :=
        Nat.lt_of_lt_of_le (held.number_lt (List.mem_map_of_mem waits)) (flow.trail_moments request).nextSeq_le
      have away := ((flow.handle request).2.trail_history rest).stays_away next.wellFormed number gone
      exact iff_of_false away fun unended => unended.1 ends
    · exact (ih next (here.mpr ends)).trans (and_iff_right ends).symm

theorem exists_registers {config : FlowConfig} {transport : τ} {requests : List Request}
    (waits : Entry.interest interest pending ∈ ((Flow.new config transport).run requests).2.pending.toList) :
    ∃ earlier interests joined later, requests = earlier ++ .ask interests joined :: later ∧
      ((Flow.new config transport).run earlier).2.Registers interests joined interest pending := by
  induction requests using List.reverseRecOn with
  | nil => exact absurd waits List.not_mem_nil
  | append_singleton requests request ih =>
    have reached := ((Flow.new config transport).trail_history requests).numbered
    rw [run_append] at waits
    by_cases before : Entry.interest interest pending ∈ ((Flow.new config transport).run requests).2.pending.toList
    · obtain ⟨earlier, interests, joined, later, rfl, registers⟩ := ih before
      exact ⟨earlier, interests, joined, later ++ [request], by simp, registers⟩
    · obtain ⟨interests, joined, rfl, registers⟩ := registers_of_handle reached.wellFormed before waits
      exact ⟨requests, interests, joined, [], rfl, registers⟩

/-- Every interest that waits was registered by a batch, and has a deadline
counted from the time of that batch if lifetimes are limited. It waits until a
put before the deadline goes to it, the flow forgets by age at a time that is not
before the deadline, or the flow is closed. -/
theorem interests_live_as_configured (config : FlowConfig) (transport : τ) (requests : List Request) :
    let start := Flow.new config transport
    let flow := (start.run requests).2
    (∀ interest pending, Entry.interest interest pending ∈ flow.pending.toList →
      ∃ earlier interests joined later, requests = earlier ++ .ask interests joined :: later ∧
        (start.run earlier).2.Registers interests joined interest pending) ∧
    ∀ earlier interests joined later interest pending, requests = earlier ++ .ask interests joined :: later →
      (start.run earlier).2.Registers interests joined interest pending →
      interest ∈ interests ∧ pending.deadline = config.interestLifetime.map joined.deadline ∧
      (Entry.interest interest pending ∈ flow.pending.toList ↔
        ∀ front request back, later = front ++ request :: back →
          ¬ (start.run (earlier ++ .ask interests joined :: front)).2.Ends interest pending request) ∧
      (∀ object now deadline, flow.Gives object now ⟨interest, pending⟩ → pending.deadline = some deadline →
        now < deadline) ∧
      (∀ request now deadline, flow.forgetsAt? request = some now → pending.deadline = some deadline →
        Entry.interest interest pending ∈ (flow.handle request).2.pending.toList → now < deadline) ∧
      (config.interestLifetime = none → ∀ request, ¬ flow.Expires pending request) := by
  intro start flow
  refine ⟨fun interest pending waits => exists_registers waits, ?_⟩
  intro earlier interests joined later interest pending divided registers
  have reached : Numbered _ (start.run earlier).2 := (start.trail_history earlier).numbered
  have kept : Numbered _ ((start.run earlier).2.ask interests joined).2 :=
    ((start.run earlier).2.trail_moments (.ask interests joined)).numbered_append reached
  have onward : ∀ front, (start.run (earlier ++ .ask interests joined :: front)).2
      = (((start.run earlier).2.ask interests joined).2.run front).2 := by
    intro front
    rw [run_append]
    rfl
  have same : flow = (((start.run earlier).2.ask interests joined).2.run later).2 := by
    rw [← onward, ← divided]
  obtain ⟨listed, -, deadline⟩ := registers.spec reached.wellFormed
  have lifetime : (start.run earlier).2.config.interestLifetime = config.interestLifetime :=
    (start.trail_history earlier).lifetime
  rw [lifetime] at deadline
  refine ⟨listed, deadline, ?_, ?_, ?_, ?_⟩
  · simp only [same, onward]
    exact remains_run_iff kept later registers.waits
  · intro object now deadline gives due
    have wellFormed : flow.pending.WellFormed := (start.trail_history requests).numbered.wellFormed
    exact Pending.isLive_iff.mp (gives.waited wellFormed).2 deadline due
  · intro request now deadline given due stays
    by_contra late
    have whole : (flow.handle request).2
        = (((start.run earlier).2.ask interests joined).2.run (later ++ [request])).2 := by
      rw [run_append, same]
      rfl
    rw [whole, remains_run_iff kept _ registers.waits] at stays
    refine stays later request [] rfl (.expired ⟨now, deadline, same ▸ given, due, ?_⟩)
    exact UInt64.not_lt.mp late
  · rintro unlimited request ⟨now, due, -, some, -⟩
    rw [deadline, unlimited] at some
    exact absurd some (by simp)

namespace Sample

def patient : Pending := ⟨0, some ⟨5000⟩⟩

def wavering : List Request := [.ask [exactly 2] ⟨900⟩, .put (segment 3) ⟨4999⟩]

def patience : List Request := .addNamespace Sample.stream :: .ask [exactly 1] ⟨1000⟩ :: wavering

def endless : FlowConfig := { FlowConfig.standard with interestLifetime := none }

end Sample

open Flow.Sample in
/-- The interest waits through all this. At 4999 segment 1 goes to it, and at
5000 it is forgotten. Without a lifetime no request makes the flow forget it. -/
theorem patient_interest_lives_until_deadline :
    let flow := (fresh.run patience).2
    (fresh.run [.addNamespace Sample.stream]).2.Registers [exactly 1] ⟨1000⟩ (exactly 1) patient ∧
      Entry.interest (exactly 1) patient ∈ flow.pending.toList ∧
      flow.Gives (segment 1) ⟨4999⟩ ⟨exactly 1, patient⟩ ∧ (⟨4999⟩ : Timestamp) < ⟨5000⟩ ∧
      flow.forgetsAt? (.ask [] ⟨5000⟩) = some ⟨5000⟩ ∧
      Entry.interest (exactly 1) patient ∉ (flow.handle (.ask [] ⟨5000⟩)).2.pending.toList ∧
      ((Flow.new endless ([] : List ContentObject)).run [.addNamespace Sample.stream]).2.Registers [exactly 1] ⟨1000⟩
        (exactly 1) ⟨0, none⟩ ∧
      ∀ request, ¬ ((Flow.new endless ([] : List ContentObject)).run patience).2.Expires ⟨0, none⟩ request := by
  intro flow
  have registers : (fresh.run [.addNamespace Sample.stream]).2.Registers [exactly 1] ⟨1000⟩ (exactly 1) patient :=
    ⟨by decide +kernel, by decide +kernel⟩
  have gives : flow.Gives (segment 1) ⟨4999⟩ ⟨exactly 1, patient⟩ := ⟨by decide +kernel, by decide +kernel⟩
  have given : flow.forgetsAt? (.ask [] ⟨5000⟩) = some ⟨5000⟩ := rfl
  obtain ⟨-, -, -, before, after, -⟩ := (interests_live_as_configured .standard ([] : List ContentObject) patience).2
    [.addNamespace Sample.stream] [exactly 1] ⟨1000⟩ wavering (exactly 1) patient rfl registers
  have lasts : ((Flow.new endless ([] : List ContentObject)).run [.addNamespace Sample.stream]).2.Registers [exactly 1]
      ⟨1000⟩ (exactly 1) ⟨0, none⟩ := ⟨by decide +kernel, by decide +kernel⟩
  obtain ⟨-, -, -, -, -, never⟩ := (interests_live_as_configured endless ([] : List ContentObject) patience).2
    [.addNamespace Sample.stream] [exactly 1] ⟨1000⟩ wavering (exactly 1) ⟨0, none⟩ rfl lasts
  refine ⟨registers, by decide +kernel, gives, before _ _ _ gives rfl, given, fun stays => ?_, lasts, never rfl⟩
  exact absurd (after _ _ _ given rfl stays) (by decide)

end Flow

end NamedContent
