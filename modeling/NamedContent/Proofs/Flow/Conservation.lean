import Mathlib.Algebra.Order.Group.Multiset
import Mathlib.Tactic.Abel
import NamedContent.Proofs.Flow.Meeting
import NamedContent.Proofs.Flow.Record

/-! Content is neither lost nor duplicated.

A put brings an object in. Every object that was brought in has gone to the
transport, is buffered, was replaced in the buffer by a later one of its name,
or was discarded when the flow was closed. One step keeps the two sides level,
and so does a run. -/

set_option autoImplicit false

namespace NamedContent

namespace NameIndex

variable {β : Type} {key : β → Name}

theorem coe_insert (index : NameIndex key) (value : β) :
    (↑(index.insert value).values + ↑(index.find? (key value)).toList : Multiset β) = ↑index.values + {value} := by
  rw [Multiset.coe_add, Multiset.coe_eq_coe.mpr (index.perm_insert_append_find? value), ← Multiset.cons_coe,
    ← Multiset.singleton_add, add_comm]

theorem coe_erase {index : NameIndex key} {value : β} (member : value ∈ index.values) :
    (↑(index.erase (key value)).values + {value} : Multiset β) = ↑index.values := by
  rw [Multiset.coe_eq_coe.mpr (perm_erase member), ← Multiset.cons_coe, ← Multiset.singleton_add, add_comm]

end NameIndex

/-- An account of what a carrier has taken, to which a refusal adds nothing. -/
structure Ledger (τ : Type) [Transport τ] where
  taken : τ → Multiset ContentObject
  accepts : ∀ {carrier after : τ} {object : ContentObject},
    Transport.deliver carrier object = (.ok (), after) → taken after = taken carrier + {object}
  refuses : ∀ {carrier after : τ} {object : ContentObject} {fault : TransportError},
    Transport.deliver carrier object = (.error fault, after) → taken after = taken carrier

def Recorder.ledger : Ledger Recorder where
  taken recorder := recorder.taken
  accepts := by
    rintro ⟨taken, quota⟩ after object handed
    rcases quota with _ | _ | left
    · obtain ⟨-, rfl⟩ := Prod.mk.inj handed
      exact (Multiset.coe_add _ _).symm
    · exact absurd (Prod.mk.inj handed).1 (by simp)
    · obtain ⟨-, rfl⟩ := Prod.mk.inj handed
      exact (Multiset.coe_add _ _).symm
  refuses := by
    rintro ⟨taken, quota⟩ after object fault handed
    rcases quota with _ | _ | left
    · exact absurd (Prod.mk.inj handed).1 (by simp)
    · exact congrArg _ (congrArg Recorder.taken (Prod.mk.inj handed).2.symm)
    · exact absurd (Prod.mk.inj handed).1 (by simp)

def Transport.Steady {τ : Type} [Transport τ] (carrier : τ) : Prop :=
  ∃ steady : τ → Prop, steady carrier ∧
    ∀ carrier object, steady carrier → ∃ after, Transport.deliver carrier object = (.ok (), after) ∧ steady after

theorem Transport.Steady.deliver {τ : Type} [Transport τ] {carrier : τ} (reliable : Transport.Steady carrier)
    (object : ContentObject) : ∃ after, Transport.deliver carrier object = (.ok (), after) ∧ Transport.Steady after := by
  obtain ⟨steady, here, takes⟩ := reliable
  obtain ⟨after, taken, there⟩ := takes carrier object here
  exact ⟨after, taken, steady, there, takes⟩

namespace Flow

variable {τ : Type}

/-- The buffered object that a put replaces by one of the same name. -/
def Moment.replaced (moment : Moment τ) : List ContentObject :=
  match moment.event with
  | .buffered object => (moment.before.buffer.find? object.name).toList
  | _ => []

def Moment.discarded (moment : Moment τ) : List ContentObject :=
  match moment.event with
  | .managed .close => moment.before.buffer.values
  | _ => []

def Moment.lost (moment : Moment τ) : List ContentObject := moment.replaced ++ moment.discarded

def total (listed : Moment τ → List ContentObject) (moments : List (Moment τ)) : Multiset ContentObject :=
  moments.flatMap listed

abbrev sent (moments : List (Moment τ)) : Multiset ContentObject := total (·.event.accepted?.toList) moments

abbrev entered (moments : List (Moment τ)) : Multiset ContentObject := total (·.event.put?.toList) moments

section Totals
variable {listed : Moment τ → List ContentObject} {moments past later : List (Moment τ)} {moment : Moment τ}

@[simp] theorem total_nil : total listed [] = 0 := rfl

@[simp] theorem total_append : total listed (past ++ later) = total listed past + total listed later := by
  simp [total]

@[simp] theorem total_cons : total listed (moment :: later) = ↑(listed moment) + total listed later := by
  simp [total]

theorem total_eq_zero (nothing : ∀ moment ∈ moments, listed moment = []) : total listed moments = 0 := by
  simpa [total] using nothing

theorem total_lost (moments : List (Moment τ)) :
    total Moment.lost moments = total Moment.replaced moments + total Moment.discarded moments := by
  induction moments with
  | nil => rfl
  | cons moment rest ih =>
    simp only [total_cons, ih, Moment.lost, ← Multiset.coe_add]
    exact add_add_add_comm _ _ _ _

theorem total_toList (pick : Event → Option ContentObject) (moments : List (Moment τ)) :
    total (fun moment => (pick moment.event).toList) moments = ↑(moments.filterMap (pick ·.event)) := by
  rw [total, ← List.filterMap_eq_flatMap_toList]

end Totals

section Steps
variable {before after start final : Flow τ} {event : Event} {moments : List (Moment τ)}

theorem balance_of_same (same : after.buffer = before.buffer) (passes : event.accepted? = event.put?)
    (kept : (⟨before, event, after⟩ : Moment τ).lost = []) :
    (after.buffer.values : Multiset ContentObject) + event.accepted?.toList
        + (⟨before, event, after⟩ : Moment τ).lost
      = ↑before.buffer.values + ↑event.put?.toList := by
  simp [same, passes, kept]

variable [Transport τ]

-- The heart of the argument: the two sides stay level in every change that a
-- step can make.
theorem Step.balance (step : before.Step event after) :
    (after.buffer.values : Multiset ContentObject) + event.accepted?.toList
        + (⟨before, event, after⟩ : Moment τ).lost
      = ↑before.buffer.values + ↑event.put?.toList := by
  cases step with
  | addNamespace => exact balance_of_same (by simp) rfl rfl
  | removeNamespace => exact balance_of_same (by simp) rfl rfl
  | deliver => exact balance_of_same (by simp) rfl rfl
  | close => simp [Moment.lost, Moment.replaced, Moment.discarded, Event.accepted?, Event.put?, Flow.close]
  | @buffer object =>
    have arrives := before.buffer.coe_insert object
    simpa [Moment.lost, Moment.replaced, Moment.discarded, Event.accepted?, Event.put?] using arrives
  | @answer interest object transport heeded best =>
    have leaves := NameIndex.coe_erase (bestBuffered?_cases best).1
    simpa [Moment.lost, Moment.replaced, Moment.discarded, Event.accepted?, Event.put?] using leaves
  | _ => exact balance_of_same rfl rfl rfl

theorem Step.mem_balance (step : before.Step event after) {object : ContentObject} :
    (object ∈ after.buffer.values ∨ event.accepted? = some object
        ∨ object ∈ (⟨before, event, after⟩ : Moment τ).lost) ↔
      object ∈ before.buffer.values ∨ event.put? = some object := by
  have level := congrArg (object ∈ ·) step.balance
  simpa [Multiset.mem_add] using level

theorem Step.taken_eq (ledger : Ledger τ) (step : before.Step event after) :
    ledger.taken after.transport = ledger.taken before.transport + event.accepted?.toList := by
  rcases step.transport_cases with
    ⟨object, -, accepts, handed⟩ | ⟨object, fault, -, silent, handed⟩ | ⟨-, silent, same⟩
  · rw [ledger.accepts handed, accepts]
    rfl
  · simp [ledger.refuses handed, silent]
  · simp [same, silent]

theorem Trail.balance (trail : Trail start moments final) :
    (final.buffer.values : Multiset ContentObject) + sent moments + total Moment.lost moments
      = ↑start.buffer.values + entered moments := by
  induction trail with
  | still flow => simp
  | @move before after final event rest step later ih =>
    simp only [sent, entered, total_cons] at ih ⊢
    generalize total Moment.lost rest = lost at ih ⊢
    generalize total _ rest = sent at ih ⊢
    generalize total _ rest = entered at ih ⊢
    calc
      (final.buffer.values : Multiset ContentObject) + (event.accepted?.toList + sent) + (↑(Moment.lost _) + lost)
        = (final.buffer.values + sent + lost) + (event.accepted?.toList + ↑(Moment.lost _)) := by abel
      _ = (after.buffer.values + event.accepted?.toList + ↑(Moment.lost _)) + entered := by rw [ih]; abel
      _ = before.buffer.values + (event.put?.toList + entered) := by rw [step.balance, add_assoc]

theorem Trail.taken_eq (ledger : Ledger τ) (trail : Trail start moments final) :
    ledger.taken final.transport = ledger.taken start.transport + sent moments := by
  induction trail with
  | still flow => simp
  | move step later ih =>
    simp only [sent, total_cons] at ih ⊢
    rw [ih, step.taken_eq ledger, add_assoc]

end Steps

def handed (object : ContentObject) : Except Failure PutOutcome → Multiset ContentObject
  | .ok .delivered | .ok .bypassed => {object}
  | .ok .buffered | .error _ => 0

section Requests
variable [Transport τ] (flow : Flow τ) (object : ContentObject) (now : Timestamp)

theorem entered_moments (request : Request) :
    entered (flow.moments request) = ↑(succeeded? (request, (flow.handle request).1)).toList := by
  rw [entered, total_toList, put?_moments]

theorem accepted?_putEvent :
    ((putEvent object (flow.admission object now).1 (flow.put object now).1).accepted?.toList : Multiset ContentObject)
      = handed object (flow.put object now).1 := by
  unfold put
  rcases flow.admission object now with ⟨admitted, weighed⟩
  cases admitted with
  | error failure => rfl
  | ok admission =>
    cases admission with
    | bypass =>
      simp only [commit]
      split <;> rfl
    | deliver candidate =>
      simp only [commit]
      split <;> rfl
    | buffer => rfl

theorem sent_putMoments : sent (flow.putMoments object now) = handed object (flow.put object now).1 := by
  have silent : sent (if flow.weighs object then
      [(⟨flow, .expired now, (flow.admission object now).2⟩ : Moment τ)] else []) = 0 := by
    split <;> rfl
  rw [putMoments, sent, total_append, ← sent, silent, zero_add, total_cons, total_nil, add_zero]
  exact flow.accepted?_putEvent object now

theorem taken_put (ledger : Ledger τ) :
    ledger.taken (flow.put object now).2.transport
      = ledger.taken flow.transport + handed object (flow.put object now).1 := by
  rw [(flow.trail_putMoments object now).taken_eq ledger, sent_putMoments]

variable {flow now}

theorem length_accepted?_askOne {interest : Interest} {hit : Bool} {after : Flow τ}
    (answered : flow.askOne interest now = (.ok hit, after)) :
    (if flow.ignores interest then Event.passedOver interest
      else askEvent interest (flow.bestBuffered? interest) (.ok hit)).accepted?.toList.length
      = if hit then 1 else 0 := by
  cases ignored : flow.ignores interest with
  | true =>
    obtain rfl : hit = false := by simpa [askOne, ignored] using congrArg Prod.fst answered
    simp [Event.accepted?]
  | false =>
    cases best : flow.bestBuffered? interest with
    | none =>
      obtain rfl : hit = false := by simpa [askOne, ignored, best] using congrArg Prod.fst answered
      simp [askEvent, Event.accepted?]
    | some object =>
      rw [flow.askOne_eq now ignored best] at answered
      split at answered
      · exact absurd (Prod.mk.inj answered).1 (by simp)
      · obtain rfl : true = hit := Except.ok.inj (Prod.mk.inj answered).1
        simp [askEvent, Event.accepted?]

theorem card_sent_askMoments {interests : List Interest} {answered count : Nat} {after : Flow τ}
    (asked : flow.askEach now answered interests = (.ok count, after)) :
    count = answered + (sent (flow.askMoments now interests)).card := by
  induction interests generalizing flow answered with
  | nil =>
    obtain rfl : answered = count := by simpa [askEach] using (Prod.mk.inj asked).1
    rfl
  | cons interest rest ih =>
    cases answer : flow.askOne interest now with
    | mk reply next =>
      cases reply with
      | error failure => simp [askEach, answer] at asked
      | ok hit =>
        simp only [askEach, answer] at asked
        have first := length_accepted?_askOne answer
        simp only [askMoments, answer, sent, total_cons, Multiset.card_add, Multiset.coe_card, first]
        rw [ih asked, sent, Nat.add_assoc]

theorem balance_askMoments (flow : Flow τ) (now : Timestamp) (interests : List Interest) (answered : Nat) :
    (flow.buffer.values : Multiset ContentObject)
      = (flow.askEach now answered interests).2.buffer.values + sent (flow.askMoments now interests) := by
  have still : ∀ moment ∈ flow.askMoments now interests,
      moment.event.put?.toList = [] ∧ moment.lost = [] := by
    intro moment found
    obtain ⟨interest, -, asked⟩ := asked_of_mem_askMoments found
    refine ⟨by rw [Event.put?_of_asked? asked]; rfl, ?_⟩
    obtain ⟨before, event, after⟩ := moment
    cases event <;> first | rfl | exact absurd asked (by simp [Event.asked?])
  have level := (flow.trail_askMoments now answered interests).balance
  rw [entered, total_eq_zero fun moment found => (still moment found).1,
    total_eq_zero fun moment found => (still moment found).2, add_zero, add_zero] at level
  exact level.symm

end Requests

variable [Transport τ]

/-- Content is conserved by every run. What went in has gone to the transport, is
buffered, was replaced or was discarded. A put hands over its own object or
nothing, and a batch hands over as many objects as it answers interests, all of
them out of the buffer. -/
theorem content_conserved (ledger : Ledger τ) (config : FlowConfig) (transport : τ) (requests : List Request) :
    let moments := (Flow.new config transport).history requests
    let replies := ((Flow.new config transport).run requests).1
    let flow := ((Flow.new config transport).run requests).2
    (∃ sent : Multiset ContentObject,
      ledger.taken flow.transport = ledger.taken transport + sent ∧
      ((requests.zip replies).filterMap succeeded? : Multiset ContentObject)
        = sent + flow.buffer.values + total Moment.replaced moments + total Moment.discarded moments) ∧
    (∀ object now, ledger.taken (flow.put object now).2.transport
      = ledger.taken flow.transport + handed object (flow.put object now).1) ∧
    ∀ interests now count after, flow.ask interests now = (.ok count, after) →
      ∃ objects : Multiset ContentObject, objects.card = count ∧
        ledger.taken after.transport = ledger.taken flow.transport + objects ∧
        (flow.buffer.values : Multiset ContentObject) = after.buffer.values + objects := by
  intro moments replies flow
  have trail : Trail _ moments flow := (Flow.new config transport).trail_history requests
  refine ⟨⟨sent moments, trail.taken_eq ledger, ?_⟩, fun object now => flow.taken_put object now ledger, ?_⟩
  · have level := trail.balance
    have puts : entered moments = ((requests.zip replies).filterMap succeeded? : Multiset ContentObject) := by
      rw [entered, total_toList, put?_history]
    rw [puts, total_lost] at level
    have empty : ((Flow.new config transport).buffer.values : Multiset ContentObject) = 0 := rfl
    rw [empty, zero_add] at level
    rw [← level]
    abel
  · intro interests now count after asked
    have handedOver := ((flow.expire now).trail_askMoments now 0 interests).taken_eq ledger
    have fromBuffer := (flow.expire now).balance_askMoments now interests 0
    have counted := card_sent_askMoments asked
    rw [show (flow.expire now).askEach now 0 interests = (.ok count, after) from asked] at handedOver fromBuffer
    refine ⟨_, ?_, handedOver, fromBuffer⟩
    rw [counted, Nat.zero_add]

namespace Sample

def trade : List Request :=
  [.addNamespace Sample.stream, .put (segment 2) ⟨1000⟩, .put (.new (Sample.stream.segment 2) [1]) ⟨1000⟩,
    .put (segment 1) ⟨1000⟩, .ask [follower 0] ⟨1000⟩]

end Sample

open Flow.Sample in
theorem trade_conserves_content :
    let start : Flow Recorder := .new .standard ⟨[], some 2⟩
    let flow := (start.run trade).2
    total Moment.replaced (start.history trade) = {segment 2} ∧
      (∃ sent : Multiset ContentObject, sent.card = 1 ∧
        ((trade.zip (start.run trade).1).filterMap succeeded? : Multiset ContentObject)
          = sent + flow.buffer.values + total Moment.replaced (start.history trade)
            + total Moment.discarded (start.history trade)) ∧
      ∃ after, flow.ask [follower 1] ⟨1000⟩ = (.ok 1, after) ∧
        ∃ objects : Multiset ContentObject, objects.card = 1 ∧
          Recorder.ledger.taken after.transport = Recorder.ledger.taken flow.transport + objects ∧
          (flow.buffer.values : Multiset ContentObject) = after.buffer.values + objects := by
  dsimp only
  let flow := ((Flow.new .standard (⟨[], some 2⟩ : Recorder)).run trade).2
  obtain ⟨⟨sent, taken, level⟩, -, answers⟩ :=
    content_conserved Recorder.ledger .standard ⟨[], some 2⟩ trade
  have one : (Recorder.ledger.taken flow.transport).card = 1 := by decide +kernel
  have replaced : total Moment.replaced ((Flow.new .standard (⟨[], some 2⟩ : Recorder)).history trade) = {segment 2} := by
    decide +kernel
  have asked : flow.ask [follower 1] ⟨1000⟩ = (.ok 1, (flow.ask [follower 1] ⟨1000⟩).2) := by
    rw [← show (flow.ask [follower 1] ⟨1000⟩).1 = .ok 1 by decide +kernel]
  have drawn := answers [follower 1] ⟨1000⟩ 1 _ asked
  rw [taken, show Recorder.ledger.taken ⟨[], some 2⟩ = 0 from rfl, zero_add] at one
  exact ⟨replaced, ⟨sent, one, level⟩, _, asked, drawn⟩

end Flow

end NamedContent
