import NamedContent.Controller.Pull
import NamedContent.Proofs.Flow.Closing
import NamedContent.Proofs.Flow.Meeting

/-! Closing a controller, and using it afterwards.

Closing waits for the buffer to drain and then closes whatever came of the wait.
What is used afterwards finds a closed flow, and readers still take what was
delivered before from the queue. -/

set_option autoImplicit false

namespace NamedContent

/-- What clients do with a controller that delivers into a queue, and what
readers do with both. -/
inductive Use where
  | addNamespace (name : Name)
  | removeNamespace (name : Name)
  | setHighwater (highwater : Nat)
  | setDrainTimeout (timeout : Duration)
  | setEnabled (enabled : Bool)
  | put (object : ContentObject)
  | ask (interests : List Interest)
  | pull (interest : Interest) (timeout : Duration)
  | close
  | pass (clock : Clock)
  deriving DecidableEq

def Use.take (queue : DeliveryQueue) : Use → DeliveryQueue
  | .pull interest _ => (queue.receive (some interest)).2
  | _ => queue

namespace Controller

def use (controller : Controller DeliveryQueue) : Use → Controller DeliveryQueue
  | .addNamespace name => controller.addNamespace name
  | .removeNamespace name => (controller.removeNamespace name).2
  | .setHighwater highwater => controller.setHighwater highwater
  | .setDrainTimeout timeout => controller.setDrainTimeout timeout
  | .setEnabled enabled => controller.setEnabled enabled
  | .put object => (controller.put object).2
  | .ask interests => (controller.ask interests).2
  | .pull interest timeout => (controller.pull interest timeout).2
  | .close => controller.close.2
  | .pass clock => { controller with clock := clock }

variable {τ : Type} (controller : Controller τ)

theorem beforeClose_cases :
    controller.beforeClose.2.flow = controller.flow ∧
      controller.beforeClose.1
        = if controller.flow.config.strictClose = true ∧ 0 < controller.flow.buffer.size then
            .error (.drainTimeout controller.flow.buffer.size controller.flow.config.drainTimeout)
          else .ok () := by
  by_cases empty : controller.flow.buffer.size = 0
  · simp [beforeClose, waitForDrain, empty]
  · cases strict : controller.flow.config.strictClose <;>
      simp [beforeClose, waitForDrain, empty, wait, strict, Nat.pos_of_ne_zero empty]

theorem flow_close : controller.close.2.flow = controller.flow.close.2 := by
  have same := controller.beforeClose_cases.1
  simp only [close, afterClose, step]
  rw [same]

theorem close_answer :
    controller.close.1
      = if controller.flow.config.strictClose = true ∧ 0 < controller.flow.buffer.size then
          .error (.drainTimeout controller.flow.buffer.size controller.flow.config.drainTimeout)
        else .ok controller.flow.buffer.size := by
  obtain ⟨same, drained⟩ := controller.beforeClose_cases
  simp only [close, afterClose, step, drained, same]
  split <;> rfl

section Shut
variable {controller}

theorem close_of_shut (shut : controller.flow.Shut) : controller.close.1 = .ok 0 := by
  have nothing : controller.flow.buffer.size = 0 := by simp [shut.buffer, NameIndex.size_eq]
  simp [close_answer, nothing]

variable [Transport τ]

theorem put_of_shut (shut : controller.flow.Shut) (object : ContentObject) :
    controller.put object = (.error .closed, controller) := by
  simp [put, step, shut.put]

theorem ask_of_shut (shut : controller.flow.Shut) (interests : List Interest) :
    controller.ask interests = (.ok 0, controller.update (·.expire controller.now)) := by
  simp [ask, step, shut.ask, update]

end Shut

section Uses
variable {queueing : Controller DeliveryQueue}

theorem flow_receive (queueing : Controller DeliveryQueue) (asked : Option Interest) (timeout : Duration) :
    (queueing.receive asked timeout).2.flow
      = { queueing.flow with transport := (queueing.flow.transport.receive asked).2 } := by
  simp only [receive, withTransport, step]
  split
  · rename_i received
    simp only [← (Prod.mk.inj received).2, wait]
  · rfl

theorem flow_pull_of_shut (shut : queueing.flow.Shut) (interest : Interest) (timeout : Duration) :
    (queueing.pull interest timeout).2.flow
      = { queueing.flow.expire queueing.now with transport := (queueing.flow.transport.receive (some interest)).2 } := by
  have received := (queueing.update (·.expire queueing.now)).flow_receive (some interest) timeout
  simp only [pull, ask_of_shut shut]
  rcases taken : (queueing.update (·.expire queueing.now)).receive (some interest) timeout with
    ⟨error | _ | object, after⟩
  all_goals exact (congrArg (·.2.flow) taken).symm.trans received

theorem use_of_shut (shut : queueing.flow.Shut) (use : Use) :
    (queueing.use use).flow.Shut ∧ (queueing.use use).flow.transport = use.take queueing.flow.transport := by
  cases use with
  | addNamespace name => exact ⟨shut.addNamespace name, Flow.transport_addNamespace _ _⟩
  | removeNamespace name => exact ⟨shut.removeNamespace name, Flow.transport_removeNamespace _ _⟩
  | setHighwater highwater => exact ⟨⟨shut.closed, shut.buffer, shut.pending, shut.marks⟩, rfl⟩
  | setDrainTimeout timeout => exact ⟨⟨shut.closed, shut.buffer, shut.pending, shut.marks⟩, rfl⟩
  | setEnabled enabled => exact ⟨⟨shut.closed, shut.buffer, shut.pending, shut.marks⟩, rfl⟩
  | put object =>
    rw [Controller.use, put_of_shut shut]
    exact ⟨shut, rfl⟩
  | ask interests =>
    rw [Controller.use, ask_of_shut shut]
    exact ⟨shut.expire _, rfl⟩
  | pull interest timeout =>
    rw [Controller.use, flow_pull_of_shut shut]
    have expired := shut.expire queueing.now
    exact ⟨⟨expired.closed, expired.buffer, expired.pending, expired.marks⟩, rfl⟩
  | close =>
    rw [Controller.use, flow_close]
    exact ⟨queueing.flow.shut_close, rfl⟩
  | pass clock => exact ⟨shut, rfl⟩

theorem uses_of_shut (shut : queueing.flow.Shut) (uses : List Use) :
    (uses.foldl use queueing).flow.Shut ∧
      (uses.foldl use queueing).flow.transport = uses.foldl Use.take queueing.flow.transport := by
  induction uses generalizing queueing with
  | nil => exact ⟨shut, rfl⟩
  | cons first rest ih =>
    obtain ⟨stays, taken⟩ := use_of_shut shut first
    rw [List.foldl_cons, List.foldl_cons, ← taken]
    exact ih stays

end Uses

/-- Close is final. The wait for the buffer ends, as some instant holds the drain
timeout. Whatever comes of it, which is a failure only if closing is strict and
something is left, the flow is closed and empty afterwards. From then on no
request to it hands anything to the transport, brings anything in or is answered
with anything, and it stays closed and empty. So does a controller whatever it is
used for, and its queue is left to its readers. -/
theorem close_is_final {τ : Type} [Transport τ] (controller : Controller τ) (requests : List Flow.Request) :
    let left := controller.flow.buffer.size
    let final := controller.flow.close.2
    (controller.close.2.flow = final ∧
      if controller.flow.config.strictClose = true ∧ 0 < left then
        ∃ waited, controller.close.1 = .error (.drainTimeout left waited)
      else controller.close.1 = .ok left) ∧
    ((final.run requests).2.Shut ∧ (final.run requests).2.transport = controller.flow.transport ∧
      (∀ moment ∈ final.history requests, moment.event.handed? = none) ∧
      List.Forall₂ Flow.Declined requests (final.run requests).1) ∧
    ∀ (queueing : Controller DeliveryQueue) (uses : List Use),
      let reached := uses.foldl use queueing.close.2
      reached.flow.Shut ∧ reached.flow.transport = uses.foldl Use.take queueing.flow.transport ∧
        (∀ object, reached.put object = (.error .closed, reached)) ∧
        (∀ interests, (reached.ask interests).1 = .ok 0) ∧ reached.close.1 = .ok 0 := by
  intro left final
  refine ⟨⟨controller.flow_close, ?_⟩, ?_, ?_⟩
  · rw [controller.close_answer]
    split
    · exact ⟨_, rfl⟩
    · rfl
  · obtain ⟨declined, shut, same, silent⟩ := controller.flow.shut_close.run requests
    exact ⟨shut, same, silent, declined⟩
  · intro queueing uses reached
    have starts : queueing.close.2.flow.Shut := queueing.flow_close ▸ queueing.flow.shut_close
    obtain ⟨shut, taken⟩ := uses_of_shut starts uses
    refine ⟨shut, ?_, put_of_shut shut, fun interests => ?_, close_of_shut shut⟩
    · rw [taken, queueing.flow_close]
      rfl
    · rw [ask_of_shut shut]

end Controller

namespace Sample

open Flow.Sample

def crammed : Controller DeliveryQueue :=
  [.addNamespace Flow.Sample.stream, .ask [exactly 1], .put (segment 1), .put (segment 2)].foldl Controller.use
    (.new { FlowConfig.standard with strictClose := true } .new (.manual ⟨1000⟩))

def aftermath : List Use := [.setEnabled false, .put (segment 3), .pull (exactly 1) .zero, .close]

end Sample

open Sample Flow.Sample in
/-- The sample closes with a failure, and yet nothing is sent from then on. -/
theorem crammed_close_is_final :
    (∃ waited, crammed.close.1 = .error (.drainTimeout 1 waited)) ∧
      crammed.flow.transport.objects = [segment 1] ∧
      (aftermath.foldl Controller.use crammed.close.2).flow.Shut ∧
      (aftermath.foldl Controller.use crammed.close.2).flow.transport.objects = [] := by
  have left : crammed.flow.buffer.size = 1 := by decide +kernel
  have strict : crammed.flow.config.strictClose = true := by decide +kernel
  obtain ⟨⟨-, answer⟩, -, after⟩ := Controller.close_is_final crammed []
  rw [if_pos ⟨strict, by rw [left]; decide⟩, left] at answer
  obtain ⟨shut, taken, -⟩ := after crammed aftermath
  refine ⟨answer, by decide +kernel, shut, ?_⟩
  rw [taken]
  decide +kernel

end NamedContent
