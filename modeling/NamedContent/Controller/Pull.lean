import NamedContent.Controller.Basic
import NamedContent.DeliveryQueue

/-! Pulling content through a controller that delivers into a queue.

A pull expresses one interest and takes the earliest queued object that the
interest matches. -/

set_option autoImplicit false

namespace NamedContent.Controller

/-- Takes the earliest queued object that the given interest matches, or without
one the earliest of all, waiting for it up to a timeout that some instant can hold. -/
def receive (controller : Controller DeliveryQueue) (asked : Option Interest) (timeout : Duration) :
    Except TransportError (Option ContentObject) × Controller DeliveryQueue :=
  match controller.withTransport (·.receive asked) with
  | (.ok none, controller) => (.ok none, controller.wait timeout)
  | answer => answer

/-- Pulls one object. An interest that nothing answers in time stays pending. -/
def pull (controller : Controller DeliveryQueue) (interest : Interest) (timeout : Duration) :
    Except Failure ContentObject × Controller DeliveryQueue :=
  match controller.ask [interest] with
  | (.error failure, controller) => (.error failure, controller)
  | (.ok _, controller) =>
    match controller.receive (some interest) timeout with
    | (.ok (some object), controller) => (.ok object, controller)
    | (.ok none, controller) => (.error (.timeout interest.name timeout), controller)
    | (.error error, controller) => (.error (.transport error), controller)

def pullName (controller : Controller DeliveryQueue) (name : Name) (timeout : Duration) :
    Except Failure ContentObject × Controller DeliveryQueue :=
  controller.pull (.ofName name) timeout

def pullNext (controller : Controller DeliveryQueue) (name : Name) (count : Nat) (timeout : Duration) :
    Except Failure ContentObject × Controller DeliveryQueue :=
  controller.pull (.next name count) timeout

def pullLatest (controller : Controller DeliveryQueue) (name : Name) (count : Nat) (timeout : Duration) :
    Except Failure ContentObject × Controller DeliveryQueue :=
  controller.pull (.last name count) timeout

end NamedContent.Controller
