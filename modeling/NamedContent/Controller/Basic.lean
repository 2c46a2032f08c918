import NamedContent.Flow.Exchange
import NamedContent.Time.Clock

/-! A flow together with the clock it is run by.

Each operation is one step: it finds the flow as the step before left it. So
whoever waits for room or for the buffer to drain waits in vain unless the
change comes first; a wait only lets the clock move on.

Every wait ends. A timeout that reaches beyond the last instant would be waited
for without end, so what is said of waits is meant for shorter ones. -/

set_option autoImplicit false

namespace NamedContent

structure Controller (τ : Type) where
  flow : Flow τ
  clock : Clock
  deriving DecidableEq

namespace Controller

variable {τ : Type}

def new (config : FlowConfig) (transport : τ) (clock : Clock) : Controller τ := ⟨.new config transport, clock⟩

def now (controller : Controller τ) : Timestamp := controller.clock.now

def setTime (controller : Controller τ) (time : Timestamp) : Controller τ :=
  { controller with clock := controller.clock.set time }

def wait (controller : Controller τ) (duration : Duration) : Controller τ :=
  { controller with clock := controller.clock.wait duration }

def update (controller : Controller τ) (change : Flow τ → Flow τ) : Controller τ :=
  { controller with flow := change controller.flow }

def step {α : Type} (controller : Controller τ) (change : Flow τ → α × Flow τ) : α × Controller τ :=
  let (answer, flow) := change controller.flow
  (answer, { controller with flow := flow })

def addNamespace (controller : Controller τ) (name : Name) : Controller τ :=
  controller.update (·.addNamespace name)

def removeNamespace (controller : Controller τ) (name : Name) : Bool × Controller τ :=
  controller.step (·.removeNamespace name)

def setHighwater (controller : Controller τ) (highwater : Nat) : Controller τ :=
  controller.update (·.setHighwater highwater)

def setDrainTimeout (controller : Controller τ) (timeout : Duration) : Controller τ :=
  controller.update (·.setDrainTimeout timeout)

def setEnabled (controller : Controller τ) (enabled : Bool) : Controller τ :=
  controller.update (·.setEnabled enabled)

def withTransport {α : Type} (controller : Controller τ) (use : τ → α × τ) : α × Controller τ :=
  controller.step fun flow =>
    let (answer, transport) := use flow.transport
    (answer, { flow with transport := transport })

/-- Waits until nothing is buffered, up to a timeout that some instant can hold. -/
def waitForDrain (controller : Controller τ) (timeout : Duration) : Except Failure Unit × Controller τ :=
  if controller.flow.buffer.size = 0 then (.ok (), controller)
  else (.error (.drainTimeout controller.flow.buffer.size timeout), controller.wait timeout)

/-- Gives the buffer a last chance to drain. What is left over is a failure only
if closing is strict. -/
def beforeClose (controller : Controller τ) : Except Failure Unit × Controller τ :=
  match controller.waitForDrain controller.flow.config.drainTimeout with
  | (.ok (), controller) => (.ok (), controller)
  | (.error failure, controller) =>
    if controller.flow.config.strictClose then (.error failure, controller) else (.ok (), controller)

def afterClose (controller : Controller τ) : Nat × Controller τ := controller.step (·.close)

/-- Gives the buffer a last chance to drain, then closes whatever came of it.
Answers how many objects were discarded. -/
def close (controller : Controller τ) : Except Failure Nat × Controller τ :=
  let (drained, controller) := controller.beforeClose
  let (discarded, controller) := controller.afterClose
  (drained.map fun _ => discarded, controller)

variable [Transport τ]

/-- Delivers an object to a pending interest or buffers it. Without room it
waits for some, up to a time that some instant can hold, and tries once more. -/
def put (controller : Controller τ) (object : ContentObject) : Except Failure PutOutcome × Controller τ :=
  match controller.step (·.put object controller.now) with
  | (.error (.capacity _), controller) =>
    let controller := controller.wait controller.flow.config.putWait
    controller.step (·.put object controller.now)
  | answer => answer

def ask (controller : Controller τ) (interests : List Interest) : Except Failure Nat × Controller τ :=
  controller.step (·.ask interests controller.now)

end Controller

end NamedContent
