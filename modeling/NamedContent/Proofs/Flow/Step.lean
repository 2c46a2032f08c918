import NamedContent.Proofs.Flow.History
import NamedContent.Proofs.Flow.Selection

/-! The changes that one moment can make.

`Step` lists them once, each with its guard and the whole flow it leads to.
Every moment of a run is one of them, so an invariant of runs is a case
analysis of `Step` and needs no look at the operations. -/

set_option autoImplicit false

namespace NamedContent.Flow

variable {τ : Type}

def forward (flow : Flow τ) (object : ContentObject) (transport : τ) : Flow τ :=
  let sent := { flow with transport := transport }
  match object.name.splitSegment? with
  | some (stream, segment) => { sent with marks := sent.marks.insert (sent.advance stream segment) }
  | none => sent

section Forward
variable (flow : Flow τ) (object : ContentObject) (transport : τ)

@[simp] theorem config_forward : (flow.forward object transport).config = flow.config := by
  unfold forward; split <;> rfl

@[simp] theorem transport_forward : (flow.forward object transport).transport = transport := by
  unfold forward; split <;> rfl

@[simp] theorem namespaces_forward : (flow.forward object transport).namespaces = flow.namespaces := by
  unfold forward; split <;> rfl

@[simp] theorem buffer_forward : (flow.forward object transport).buffer = flow.buffer := by
  unfold forward; split <;> rfl

@[simp] theorem pending_forward : (flow.forward object transport).pending = flow.pending := by
  unfold forward; split <;> rfl

@[simp] theorem nextSeq_forward : (flow.forward object transport).nextSeq = flow.nextSeq := by
  unfold forward; split <;> rfl

@[simp] theorem enabled_forward : (flow.forward object transport).enabled = flow.enabled := by
  unfold forward; split <;> rfl

@[simp] theorem closed_forward : (flow.forward object transport).closed = flow.closed := by
  unfold forward; split <;> rfl

theorem forward_eq :
    flow.forward object transport
      = { flow with transport := transport, marks := (flow.forward object transport).marks } := by
  unfold forward; split <;> rfl

end Forward

theorem weighs_iff {flow : Flow τ} {object : ContentObject} :
    flow.weighs object = true ↔
      flow.closed = false ∧ flow.enabled = true ∧ flow.covers object.name = true := by
  simp [weighs, and_assoc]

/-- How a put is judged once the flow has forgotten what it has to. -/
inductive Judges (flow : Flow τ) (object : ContentObject) : Except Failure Admission → Prop where
  | closed (closed : flow.closed = true) : Judges flow object (.error .closed)
  | bypass (opened : flow.closed = false) (disabled : flow.enabled = false) : Judges flow object (.ok .bypass)
  | outside (opened : flow.closed = false) (enabled : flow.enabled = true)
      (uncovered : flow.covers object.name = false) : Judges flow object (.error (.outsideNamespaces object.name))
  | deliver {candidate : Candidate} (weighed : flow.weighs object = true)
      (best : flow.bestPending? object = some candidate) : Judges flow object (.ok (.deliver candidate))
  | full (weighed : flow.weighs object = true) (unwanted : flow.bestPending? object = none)
      (new : flow.isBuffered object.name = false) (full : flow.config.highwater ≤ flow.buffer.size) :
      Judges flow object (.error (.capacity flow.config.highwater))
  | buffer (weighed : flow.weighs object = true) (unwanted : flow.bestPending? object = none)
      (room : flow.isBuffered object.name = true ∨ flow.buffer.size < flow.config.highwater) :
      Judges flow object (.ok .buffer)

theorem admission_cases (flow : Flow τ) (object : ContentObject) (now : Timestamp) :
    (flow.admission object now).2 = (if flow.weighs object then flow.expire now else flow) ∧
      (flow.admission object now).2.Judges object (flow.admission object now).1 := by
  cases closed : flow.closed with
  | true => simpa [admission, weighs, closed] using Judges.closed closed
  | false =>
    cases enabled : flow.enabled with
    | false => simpa [admission, weighs, closed, enabled] using Judges.bypass closed enabled
    | true =>
      cases covered : flow.covers object.name with
      | false => simpa [admission, weighs, closed, enabled, covered] using Judges.outside closed enabled covered
      | true =>
        have weighed : flow.weighs object = true := by simp [weighs, closed, enabled, covered]
        have later : (flow.expire now).weighs object = true := weighed
        cases best : (flow.expire now).bestPending? object with
        | some candidate =>
          simpa [admission, weighed, closed, enabled, covered, best] using Judges.deliver later best
        | none =>
          by_cases room : (flow.expire now).isBuffered object.name = true ∨
              (flow.expire now).buffer.size < (flow.expire now).config.highwater
          · have admitted : flow.admission object now = (.ok .buffer, flow.expire now) := by
              simp only [admission, closed, enabled, covered, best]
              rcases room with held | smaller <;> simp [*]
            simpa [admitted, weighed] using Judges.buffer later best room
          · obtain ⟨new, full⟩ := not_or.mp room
            have refused : flow.admission object now
                = (.error (.capacity (flow.expire now).config.highwater), flow.expire now) := by
              simp only [admission, closed, enabled, covered, best]
              simp [new, Nat.not_lt.mp full]
            rw [refused, if_pos weighed]
            exact ⟨rfl, Judges.full later best (Bool.eq_false_iff.mpr new) (Nat.not_lt.mp full)⟩

-- An interest near a namespace is heeded, unless it says otherwise.
theorem ignores_eq_false_of_overlaps {flow : Flow τ} {interest : Interest} (opened : flow.closed = false)
    (near : flow.overlaps interest.name = true) (unstated : interest.origin = none) : flow.ignores interest = false := by
  have generated : interest.acceptsGenerated = true := by
    rw [Interest.acceptsGenerated, Interest.answerOrigin, unstated]
    decide
  rw [ignores, opened, near, generated]
  rfl

theorem ignores_eq_false {flow : Flow τ} {interest : Interest} (opened : flow.closed = false)
    (covered : flow.covers interest.name = true) (unstated : interest.origin = none) : flow.ignores interest = false := by
  obtain ⟨held, registered, begins⟩ := List.any_eq_true.mp covered
  have near : flow.overlaps interest.name = true := List.any_eq_true.mpr ⟨held, registered, by simp [begins]⟩
  exact ignores_eq_false_of_overlaps opened near unstated

variable [Transport τ]

theorem send_error {flow : Flow τ} {object : ContentObject} {fault : TransportError} {transport : τ}
    (handed : Transport.deliver flow.transport object = (.error fault, transport)) :
    flow.send object = (.error (.transport fault), { flow with transport := transport }) := by
  rw [send, handed]
  rfl

theorem send_ok {flow : Flow τ} {object : ContentObject} {transport : τ}
    (handed : Transport.deliver flow.transport object = (.ok (), transport)) :
    flow.send object = (.ok (), { flow with transport := transport }) := by
  rw [send, handed]
  rfl

theorem deliver_error {flow : Flow τ} {object : ContentObject} {fault : TransportError} {transport : τ}
    (handed : Transport.deliver flow.transport object = (.error fault, transport)) :
    flow.deliver object = (.error (.transport fault), { flow with transport := transport }) := by
  simp [deliver, send_error handed]

theorem deliver_ok {flow : Flow τ} {object : ContentObject} {transport : τ}
    (handed : Transport.deliver flow.transport object = (.ok (), transport)) :
    flow.deliver object = (.ok (), flow.forward object transport) := by
  cases split : object.name.splitSegment? <;> simp [deliver, send_ok handed, forward, split]

-- Handing an object over either leaves everything but the transport alone or
-- forwards the object.
theorem deliver_cases (flow : Flow τ) (object : ContentObject) :
    (∃ fault transport, Transport.deliver flow.transport object = (.error fault, transport) ∧
      flow.deliver object = (.error (.transport fault), { flow with transport := transport })) ∨
    (∃ transport, Transport.deliver flow.transport object = (.ok (), transport) ∧
      flow.deliver object = (.ok (), flow.forward object transport)) := by
  cases handed : Transport.deliver flow.transport object with
  | mk taken transport =>
    cases taken with
    | error fault => exact Or.inl ⟨fault, transport, rfl, deliver_error handed⟩
    | ok done => exact Or.inr ⟨transport, rfl, deliver_ok handed⟩

/-- One moment: the flow before it, what happens, and the flow after it. -/
inductive Step (flow : Flow τ) : Event → Flow τ → Prop where
  | addNamespace (name : Name) : Step flow (.managed (.addNamespace name)) (flow.addNamespace name)
  | removeNamespace (name : Name) : Step flow (.managed (.removeNamespace name)) (flow.removeNamespace name).2
  | setHighwater (highwater : Nat) : Step flow (.managed (.setHighwater highwater)) (flow.setHighwater highwater)
  | setDrainTimeout (timeout : Duration) :
      Step flow (.managed (.setDrainTimeout timeout)) (flow.setDrainTimeout timeout)
  | setEnabled (enabled : Bool) : Step flow (.managed (.setEnabled enabled)) (flow.setEnabled enabled)
  | close : Step flow (.managed .close) flow.close.2
  | expire (now : Timestamp) : Step flow (.expired now) (flow.expire now)
  | turnAway {object : ContentObject} {failure : Failure} (judged : flow.Judges object (.error failure)) :
      Step flow (.turnedAway object failure) flow
  | refuse {object : ContentObject} {admission : Admission} {fault : TransportError} {transport : τ}
      (judged : flow.Judges object (.ok admission))
      (handed : Transport.deliver flow.transport object = (.error fault, transport)) :
      Step flow (.refused object) { flow with transport := transport }
  | bypass {object : ContentObject} {transport : τ} (judged : flow.Judges object (.ok .bypass))
      (handed : Transport.deliver flow.transport object = (.ok (), transport)) :
      Step flow (.bypassed object) { flow with transport := transport }
  | deliver {object : ContentObject} {candidate : Candidate} {transport : τ}
      (judged : flow.Judges object (.ok (.deliver candidate)))
      (handed : Transport.deliver flow.transport object = (.ok (), transport)) :
      Step flow (.delivered object candidate)
        { flow.forward object transport with
          pending := (flow.pending.removeInterest candidate.interest candidate.pending).2 }
  | buffer {object : ContentObject} (judged : flow.Judges object (.ok .buffer)) :
      Step flow (.buffered object) { flow with buffer := flow.buffer.insert object }
  | passOver {interest : Interest} (ignored : flow.ignores interest = true) :
      Step flow (.passedOver interest) flow
  | register {interest : Interest} (now : Timestamp) (heeded : flow.ignores interest = false)
      (nothing : flow.bestBuffered? interest = none) :
      Step flow (.registered interest) (flow.register interest now)
  | withhold {interest : Interest} {object : ContentObject} {fault : TransportError} {transport : τ}
      (heeded : flow.ignores interest = false) (best : flow.bestBuffered? interest = some object)
      (handed : Transport.deliver flow.transport object = (.error fault, transport)) :
      Step flow (.withheld interest object) { flow with transport := transport }
  | answer {interest : Interest} {object : ContentObject} {transport : τ}
      (heeded : flow.ignores interest = false) (best : flow.bestBuffered? interest = some object)
      (handed : Transport.deliver flow.transport object = (.ok (), transport)) :
      Step flow (.answered interest object)
        { flow.forward object transport with buffer := flow.buffer.erase object.name }

theorem step_commit {flow : Flow τ} {object : ContentObject} {admission : Admission}
    (judged : flow.Judges object (.ok admission)) :
    flow.Step (putEvent object (.ok admission) (flow.commit object admission).1)
      (flow.commit object admission).2 := by
  cases admission with
  | bypass =>
    cases handed : Transport.deliver flow.transport object with
    | mk taken transport =>
      cases taken with
      | error fault => simpa [commit, send_error handed, putEvent] using Step.refuse judged handed
      | ok done => simpa [commit, send_ok handed, putEvent] using Step.bypass judged handed
  | deliver candidate =>
    rcases flow.deliver_cases object with ⟨fault, transport, handed, result⟩ | ⟨transport, handed, result⟩
    · simpa [commit, result, putEvent] using Step.refuse judged handed
    · simpa [commit, result, putEvent] using Step.deliver judged handed
  | buffer => exact Step.buffer judged

-- A put is judged by the flow it leads to before anything is carried out.
theorem put_cases (flow : Flow τ) (object : ContentObject) (now : Timestamp) :
    ∃ answer weighed, weighed = (if weighed.weighs object then flow.expire now else flow) ∧
      weighed.Judges object answer ∧
      flow.put object now
        = match answer with
          | .error failure => (.error failure, weighed)
          | .ok admission => weighed.commit object admission := by
  obtain ⟨weighing, judged⟩ := flow.admission_cases object now
  refine ⟨_, _, ?_, judged, ?_⟩
  · have same : (flow.admission object now).2.weighs object = flow.weighs object := by
      rw [weighing]
      split <;> rfl
    rw [same]
    exact weighing
  · rw [put]
    rcases flow.admission object now with ⟨_ | _, weighed⟩ <;> rfl

theorem put_of_weighs {flow : Flow τ} {object : ContentObject} (weighs : flow.weighs object = true) (now : Timestamp) :
    flow.put object now
      = match (flow.expire now).bestPending? object with
        | some candidate => (flow.expire now).commit object (.deliver candidate)
        | none =>
          if flow.isBuffered object.name = true ∨ flow.buffer.size < flow.config.highwater then
            (.ok .buffered, { flow.expire now with buffer := (flow.expire now).buffer.insert object })
          else (.error (.capacity flow.config.highwater), flow.expire now) := by
  obtain ⟨answer, weighed, weighing, judged, result⟩ := flow.put_cases object now
  have same : weighed.weighs object = flow.weighs object := by
    rw [weighing]
    split <;> rfl
  rw [same, if_pos weighs] at weighing
  subst weighing
  obtain ⟨opened, enabled, covered⟩ := weighs_iff.mp weighs
  rw [result]
  cases judged with
  | closed closed => exact absurd (opened.symm.trans closed) (by simp)
  | bypass _ disabled => exact absurd (enabled.symm.trans disabled) (by simp)
  | outside _ _ uncovered => exact absurd (covered.symm.trans uncovered) (by simp)
  | deliver _ best => rw [best]
  | full _ nothing new full =>
    rw [nothing]
    exact (if_neg (not_or.mpr ⟨Bool.eq_false_iff.mp new, Nat.not_lt.mpr full⟩)).symm
  | buffer _ nothing room =>
    rw [nothing]
    exact (if_pos room).symm

theorem put_cases_of_weighs {flow : Flow τ} {object : ContentObject} (weighs : flow.weighs object = true)
    (now : Timestamp) :
    (∃ candidate, (flow.expire now).bestPending? object = some candidate ∧
      flow.put object now = (flow.expire now).commit object (.deliver candidate)) ∨
    (flow.expire now).bestPending? object = none ∧
      (flow.config.highwater ≤ flow.buffer.size ∨
        flow.put object now
          = (.ok .buffered, { flow.expire now with buffer := (flow.expire now).buffer.insert object })) := by
  have result := put_of_weighs weighs now
  cases best : (flow.expire now).bestPending? object with
  | some candidate =>
    rw [best] at result
    exact Or.inl ⟨candidate, rfl, result⟩
  | none =>
    rw [best] at result
    refine Or.inr ⟨rfl, ?_⟩
    by_cases room : flow.isBuffered object.name = true ∨ flow.buffer.size < flow.config.highwater
    · exact Or.inr (result.trans (if_pos room))
    · exact Or.inl (Nat.not_lt.mp (not_or.mp room).2)

theorem commit_deliver_ok {flow : Flow τ} {object : ContentObject} {transport : τ}
    (handed : Transport.deliver flow.transport object = (.ok (), transport)) (candidate : Candidate) :
    flow.commit object (.deliver candidate)
      = (.ok .delivered,
        { flow.forward object transport with
          pending := (flow.pending.removeInterest candidate.interest candidate.pending).2 }) := by
  simp [commit, deliver_ok handed]

theorem commit_deliver_error {flow : Flow τ} {object : ContentObject} {fault : TransportError} {transport : τ}
    (handed : Transport.deliver flow.transport object = (.error fault, transport)) (candidate : Candidate) :
    flow.commit object (.deliver candidate) = (.error (.transport fault), { flow with transport := transport }) := by
  simp [commit, deliver_error handed]

-- The transport takes no notice of the buffer, and what it refuses is put back.
theorem askOne_eq (flow : Flow τ) {interest : Interest} {object : ContentObject} (now : Timestamp)
    (heeded : flow.ignores interest = false) (best : flow.bestBuffered? interest = some object) :
    flow.askOne interest now
      = match flow.deliver object with
        | (.error failure, after) => (.error failure, after)
        | (.ok (), after) => (.ok true, { after with buffer := flow.buffer.erase object.name }) := by
  have stored := (bestBuffered?_cases best).1
  have back : (flow.buffer.erase object.name).insert object = flow.buffer := NameIndex.insert_erase stored
  let taken := { flow with buffer := flow.buffer.erase object.name }
  rcases flow.deliver_cases object with ⟨fault, transport, handed, result⟩ | ⟨transport, handed, result⟩
  · have refused : taken.deliver object = (.error (.transport fault), { taken with transport := transport }) :=
      deliver_error handed
    simp [askOne, heeded, best, taken, refused, result, back]
  · have accepted : taken.deliver object = (.ok (), taken.forward object transport) := deliver_ok handed
    have same : taken.forward object transport
        = { flow.forward object transport with buffer := flow.buffer.erase object.name } := by
      unfold forward
      cases object.name.splitSegment? <;> rfl
    simp [askOne, heeded, best, taken, accepted, result, same]

theorem askOne_ok {flow : Flow τ} {interest : Interest} {object : ContentObject} {transport : τ}
    (heeded : flow.ignores interest = false) (best : flow.bestBuffered? interest = some object)
    (handed : Transport.deliver flow.transport object = (.ok (), transport)) (now : Timestamp) :
    flow.askOne interest now
      = (.ok true, { flow.forward object transport with buffer := flow.buffer.erase object.name }) := by
  simp [askOne_eq flow now heeded best, deliver_ok handed]

theorem ask_single_of_some {flow : Flow τ} {interest : Interest} {object : ContentObject} {transport : τ}
    {now : Timestamp} (heeded : flow.ignores interest = false)
    (best : (flow.expire now).bestBuffered? interest = some object)
    (handed : Transport.deliver flow.transport object = (.ok (), transport)) :
    flow.ask [interest] now
      = (.ok 1, { (flow.expire now).forward object transport with buffer := flow.buffer.erase object.name }) := by
  have ignored : (flow.expire now).ignores interest = false := heeded
  have sent : Transport.deliver (flow.expire now).transport object = (.ok (), transport) := handed
  rw [ask, askEach, askOne_ok ignored best sent now]
  rfl

theorem ask_single_of_none {flow : Flow τ} {interest : Interest} {now : Timestamp}
    (heeded : flow.ignores interest = false) (nothing : (flow.expire now).bestBuffered? interest = none) :
    flow.ask [interest] now = (.ok 0, (flow.expire now).register interest now) := by
  have ignored : (flow.expire now).ignores interest = false := heeded
  have kept : (flow.expire now).askOne interest now = (.ok false, (flow.expire now).register interest now) := by
    simp [askOne, ignored, nothing]
  rw [ask, askEach, kept]
  rfl

theorem ask_single {flow : Flow τ} {interest : Interest} {object : ContentObject} {transport : τ} {now : Timestamp}
    (heeded : flow.ignores interest = false) (best : (flow.expire now).bestBuffered? interest = some object)
    (handed : Transport.deliver flow.transport object = (.ok (), transport)) :
    ∃ after, flow.ask [interest] now = (.ok 1, after) ∧ after.transport = transport ∧
      after.buffer = flow.buffer.erase object.name ∧
      flow.moments (.ask [interest] now)
        = [⟨flow, .expired now, flow.expire now⟩, ⟨flow.expire now, .answered interest object, after⟩] := by
  have ignored : (flow.expire now).ignores interest = false := heeded
  have sent : Transport.deliver (flow.expire now).transport object = (.ok (), transport) := handed
  refine ⟨_, ask_single_of_some heeded best handed, transport_forward _ _ _, rfl, ?_⟩
  have answered := askOne_ok ignored best sent now
  simp only [moments, askMoments, answered, ignored, best, askEvent]
  rfl

theorem ask_single_cases {flow after : Flow τ} {interest : Interest} {now : Timestamp} {count : Nat}
    (asked : flow.ask [interest] now = (.ok count, after)) :
    after = flow.expire now ∨
    (flow.expire now).bestBuffered? interest = none ∧ after = (flow.expire now).register interest now ∨
    ∃ object transport, (flow.expire now).bestBuffered? interest = some object ∧
      Transport.deliver flow.transport object = (.ok (), transport) ∧
      after = { (flow.expire now).forward object transport with buffer := flow.buffer.erase object.name } := by
  simp only [ask, askEach] at asked
  cases ignored : (flow.expire now).ignores interest with
  | true =>
    simp only [askOne, ignored, if_true] at asked
    exact Or.inl (Prod.mk.inj asked).2.symm
  | false =>
    apply Or.inr
    cases best : (flow.expire now).bestBuffered? interest with
    | none =>
      simp only [askOne, ignored, Bool.false_eq_true, if_false, best] at asked
      exact Or.inl ⟨rfl, (Prod.mk.inj asked).2.symm⟩
    | some object =>
      rw [askOne_eq _ now ignored best] at asked
      rcases (flow.expire now).deliver_cases object with ⟨fault, transport, -, result⟩ | ⟨transport, handed, result⟩
      · simp [result] at asked
      · simp only [result] at asked
        exact Or.inr ⟨object, transport, rfl, handed, (Prod.mk.inj asked).2.symm⟩

theorem step_askOne (flow : Flow τ) (interest : Interest) (now : Timestamp) :
    flow.Step
      (if flow.ignores interest then .passedOver interest
        else askEvent interest (flow.bestBuffered? interest) (flow.askOne interest now).1)
      (flow.askOne interest now).2 := by
  cases ignored : flow.ignores interest with
  | true => simpa [askOne, ignored] using Step.passOver ignored
  | false =>
    cases best : flow.bestBuffered? interest with
    | none => simpa [askOne, ignored, best, askEvent] using Step.register now ignored best
    | some object =>
      rw [flow.askOne_eq now ignored best]
      rcases flow.deliver_cases object with ⟨fault, transport, handed, result⟩ | ⟨transport, handed, result⟩
      · simpa [result, askEvent] using Step.withhold ignored best handed
      · simpa [result, askEvent] using Step.answer ignored best handed

end NamedContent.Flow
