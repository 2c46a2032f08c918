import NamedContent.Proofs.Flow.Stores

/-! A flow that is closed stays closed.

Every operation checks in an order of its own whether the flow is closed. A step
from a closed and empty flow hands nothing to the transport and leads to a closed
and empty flow, so whatever is asked of it comes to nothing. -/

set_option autoImplicit false

namespace NamedContent.Flow

/-- A request that brings something in, and the answer that nothing comes of it. -/
def Declined : Request → Reply → Prop
  | .put _ _, reply => reply = .put (.error .closed)
  | .ask _ _, reply => reply = .answered (.ok 0)
  | .close, reply => reply = .discarded 0
  | _, _ => True

variable {τ : Type} {flow before after : Flow τ} {event : Event}

structure Shut (flow : Flow τ) : Prop where
  closed : flow.closed = true
  buffer : flow.buffer = .empty
  pending : flow.pending = .empty
  marks : flow.marks = .empty

theorem shut_close (flow : Flow τ) : flow.close.2.Shut := ⟨rfl, rfl, rfl, rfl⟩

theorem Judges.opened {object : ContentObject} {admission : Admission}
    (judged : flow.Judges object (.ok admission)) : flow.closed = false := by
  cases judged with
  | bypass opened => exact opened
  | deliver weighed => exact (weighs_iff.mp weighed).1
  | buffer weighed => exact (weighs_iff.mp weighed).1

theorem opened_of_heeded {interest : Interest} (heeded : flow.ignores interest = false) : flow.closed = false := by
  simp only [ignores, Bool.or_eq_false_iff] at heeded
  exact heeded.1.1

theorem pending_expire_of_empty (none : flow.pending = .empty) (now : Timestamp) : (flow.expire now).pending = .empty := by
  change flow.pending.filter _ = _
  rw [none]
  rfl

namespace Shut

theorem expire (shut : flow.Shut) (now : Timestamp) : (flow.expire now).Shut where
  closed := shut.closed
  buffer := shut.buffer
  pending := pending_expire_of_empty shut.pending now
  marks := by
    unfold Flow.expire
    simp only [shut.marks]
    split
    · exact NameIndex.ext (by simp)
    · rfl

theorem removeNamespace (shut : flow.Shut) (name : Name) : (flow.removeNamespace name).2.Shut := by
  unfold Flow.removeNamespace
  simp only
  split
  · exact shut
  · exact ⟨shut.closed, shut.buffer, shut.pending, NameIndex.ext (by simp [shut.marks])⟩

theorem addNamespace (shut : flow.Shut) (name : Name) : (flow.addNamespace name).Shut := by
  unfold Flow.addNamespace
  split
  · exact shut
  · exact ⟨shut.closed, shut.buffer, shut.pending, shut.marks⟩

theorem discarded (shut : flow.Shut) : flow.close.1 = 0 := by
  simp [Flow.close, shut.buffer, NameIndex.size_eq]

variable [Transport τ]

-- The only steps are those that bring nothing in.
theorem step (shut : before.Shut) (step : before.Step event after) :
    after.Shut ∧ after.transport = before.transport ∧ event.handed? = none := by
  have opened_elim : before.closed = false → False := fun opened => absurd (shut.closed.symm.trans opened) (by simp)
  cases step with
  | addNamespace name => exact ⟨shut.addNamespace name, transport_addNamespace _ _, rfl⟩
  | removeNamespace name => exact ⟨shut.removeNamespace name, transport_removeNamespace _ _, rfl⟩
  | close => exact ⟨shut_close before, rfl, rfl⟩
  | expire now => exact ⟨shut.expire now, rfl, rfl⟩
  | refuse judged => exact (opened_elim judged.opened).elim
  | bypass judged => exact (opened_elim judged.opened).elim
  | deliver judged => exact (opened_elim judged.opened).elim
  | buffer judged => exact (opened_elim judged.opened).elim
  | register now heeded => exact (opened_elim (opened_of_heeded heeded)).elim
  | withhold heeded => exact (opened_elim (opened_of_heeded heeded)).elim
  | answer heeded => exact (opened_elim (opened_of_heeded heeded)).elim
  | _ => exact ⟨⟨shut.closed, shut.buffer, shut.pending, shut.marks⟩, rfl, rfl⟩

theorem trail {final : Flow τ} {moments : List (Moment τ)} (shut : before.Shut) (trail : Trail before moments final) :
    final.Shut ∧ final.transport = before.transport ∧ ∀ moment ∈ moments, moment.event.handed? = none := by
  induction trail with
  | still flow => exact ⟨shut, rfl, by simp⟩
  | move step later ih =>
    obtain ⟨stays, sameTransport, silent⟩ := shut.step step
    obtain ⟨ends, same, silentLater⟩ := ih stays
    exact ⟨ends, same.trans sameTransport, List.forall_mem_cons.mpr ⟨silent, silentLater⟩⟩

theorem put (shut : flow.Shut) (object : ContentObject) (now : Timestamp) :
    flow.put object now = (.error .closed, flow) := by
  simp [Flow.put, admission, shut.closed]

theorem ask (shut : flow.Shut) (interests : List Interest) (now : Timestamp) :
    flow.ask interests now = (.ok 0, flow.expire now) := by
  have closed : (flow.expire now).closed = true := shut.closed
  rw [Flow.ask]
  induction interests with
  | nil => rfl
  | cons interest rest ih => simpa [askEach, askOne, ignores, closed] using ih

theorem declines (shut : flow.Shut) (request : Request) : Declined request (flow.handle request).1 := by
  cases request with
  | put object now => simp [Declined, handle, shut.put]
  | ask interests now => simp [Declined, handle, shut.ask]
  | close => simp [Declined, handle, shut.discarded]
  | _ => trivial

theorem run (shut : flow.Shut) (requests : List Request) :
    List.Forall₂ Declined requests (flow.run requests).1 ∧ (flow.run requests).2.Shut ∧
      (flow.run requests).2.transport = flow.transport ∧
      ∀ moment ∈ flow.history requests, moment.event.handed? = none := by
  refine ⟨?_, shut.trail (flow.trail_history requests)⟩
  induction requests generalizing flow with
  | nil => exact .nil
  | cons request rest ih =>
    have stays := (shut.trail (flow.trail_moments request)).1
    exact .cons (shut.declines request) (ih stays)

end Shut

end NamedContent.Flow
