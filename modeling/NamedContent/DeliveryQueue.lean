import NamedContent.Interest.Basic
import NamedContent.Transport

/-! An in-process delivery queue with a sending and a receiving end.

The receiving end takes objects in the order they were delivered, except that
it may pass over those it does not want. Either end notices when the other one
is gone, but what was delivered before can still be taken. -/

set_option autoImplicit false

namespace NamedContent

structure DeliveryQueue where
  /-- Delivered and not yet taken, latest first. -/
  backlog : List ContentObject
  senderGone : Bool
  receiverGone : Bool
  deriving DecidableEq, Repr

namespace DeliveryQueue

def new : DeliveryQueue := ⟨[], false, false⟩

def objects (queue : DeliveryQueue) : List ContentObject := queue.backlog.reverse

def dropSender (queue : DeliveryQueue) : DeliveryQueue := { queue with senderGone := true }

def dropReceiver (queue : DeliveryQueue) : DeliveryQueue := { queue with receiverGone := true }

/-- Appends an object, unless there is no one to take it. -/
def deliver (queue : DeliveryQueue) (object : ContentObject) : Except TransportError Unit × DeliveryQueue :=
  if queue.receiverGone then (.error .disconnected, queue)
  else (.ok (), { queue with backlog := object :: queue.backlog })

instance : Transport DeliveryQueue := ⟨deliver⟩

def without (queue : DeliveryQueue) (test : ContentObject → Bool) : DeliveryQueue :=
  { queue with backlog := (queue.objects.eraseP test).reverse }

@[simp] theorem objects_new : new.objects = [] := rfl

@[simp] theorem objects_dropSender (queue : DeliveryQueue) : queue.dropSender.objects = queue.objects := rfl

@[simp] theorem objects_dropReceiver (queue : DeliveryQueue) : queue.dropReceiver.objects = queue.objects := rfl

theorem objects_deliver (queue : DeliveryQueue) (object : ContentObject) :
    (queue.deliver object).2.objects = if queue.receiverGone then queue.objects else queue.objects ++ [object] := by
  unfold deliver
  split <;> simp [objects]

@[simp] theorem objects_without (queue : DeliveryQueue) (test : ContentObject → Bool) :
    (queue.without test).objects = queue.objects.eraseP test := by
  simp [without, objects]

/-- Takes the earliest object that passes a test. Without one the answer is
nothing, once the wait for another delivery has ended, or that the sender is
gone. -/
def receiveWhere (queue : DeliveryQueue) (test : ContentObject → Bool) :
    Except TransportError (Option ContentObject) × DeliveryQueue :=
  match queue.objects.find? test with
  | some object => (.ok (some object), queue.without test)
  | none => if queue.senderGone then (.error .disconnected, queue) else (.ok none, queue)

def receive (queue : DeliveryQueue) (asked : Option Interest) :
    Except TransportError (Option ContentObject) × DeliveryQueue :=
  queue.receiveWhere fun object => asked.all (·.matchesObject object)

end DeliveryQueue

end NamedContent
