import NamedContent.DeliveryQueue

/-! What the two ends do with a delivery queue, one after the other, and the
receiving end's wait for what it wants. -/

set_option autoImplicit false

namespace NamedContent

namespace DeliveryQueue

inductive Request where
  | deliver (object : ContentObject)
  | receive (asked : Option Interest)
  | dropSender
  | dropReceiver
  deriving DecidableEq, Repr

inductive Reply where
  | done
  | delivered (outcome : Except TransportError Unit)
  | received (outcome : Except TransportError (Option ContentObject))

def handle (queue : DeliveryQueue) : Request → Reply × DeliveryQueue
  | .deliver object =>
    let (outcome, queue) := queue.deliver object
    (.delivered outcome, queue)
  | .receive asked =>
    let (outcome, queue) := queue.receive asked
    (.received outcome, queue)
  | .dropSender => (.done, queue.dropSender)
  | .dropReceiver => (.done, queue.dropReceiver)

def run (queue : DeliveryQueue) : List Request → List Reply × DeliveryQueue
  | [] => ([], queue)
  | request :: rest =>
    let (reply, queue) := queue.handle request
    let (replies, queue) := queue.run rest
    (reply :: replies, queue)

theorem run_append (queue : DeliveryQueue) (first second : List Request) :
    queue.run (first ++ second)
      = ((queue.run first).1 ++ ((queue.run first).2.run second).1, ((queue.run first).2.run second).2) := by
  induction first generalizing queue with
  | nil => simp [run]
  | cons request rest ih => simp [run, ih]

/-- Receives with time to wait: looks at the queue, and as long as nothing is to be
had looks again after each pause, in which the other end may do something. Without
any pause left the time is up. What belongs to pauses that are not waited for is
carried out after the answer. -/
def receiveWithin (queue : DeliveryQueue) (asked : Option Interest) :
    List (List Request) → Except TransportError (Option ContentObject) × DeliveryQueue
  | [] => queue.receive asked
  | pause :: rest =>
    match queue.receive asked with
    | (.ok none, queue) => (queue.run pause).2.receiveWithin asked rest
    | (answer, queue) => (answer, (queue.run (pause ++ rest.flatten)).2)

end DeliveryQueue

end NamedContent
