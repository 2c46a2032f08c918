import NamedContent.Flow.Exchange

/-! Sequences of operations on one flow. -/

set_option autoImplicit false

namespace NamedContent

namespace Flow

inductive Request where
  | addNamespace (name : Name)
  | removeNamespace (name : Name)
  | put (object : ContentObject) (now : Timestamp)
  | ask (interests : List Interest) (now : Timestamp)
  | setHighwater (highwater : Nat)
  | setDrainTimeout (timeout : Duration)
  | setEnabled (enabled : Bool)
  | close
  deriving DecidableEq, Repr

inductive Reply where
  | done
  | removed (found : Bool)
  | put (outcome : Except Failure PutOutcome)
  | answered (count : Except Failure Nat)
  | discarded (count : Nat)

variable {τ : Type} [Transport τ]

def handle (flow : Flow τ) : Request → Reply × Flow τ
  | .addNamespace name => (.done, flow.addNamespace name)
  | .removeNamespace name =>
    let (found, flow) := flow.removeNamespace name
    (.removed found, flow)
  | .put object now =>
    let (outcome, flow) := flow.put object now
    (.put outcome, flow)
  | .ask interests now =>
    let (count, flow) := flow.ask interests now
    (.answered count, flow)
  | .setHighwater highwater => (.done, flow.setHighwater highwater)
  | .setDrainTimeout timeout => (.done, flow.setDrainTimeout timeout)
  | .setEnabled enabled => (.done, flow.setEnabled enabled)
  | .close =>
    let (count, flow) := flow.close
    (.discarded count, flow)

def run (flow : Flow τ) : List Request → List Reply × Flow τ
  | [] => ([], flow)
  | request :: rest =>
    let (reply, flow) := flow.handle request
    let (replies, flow) := flow.run rest
    (reply :: replies, flow)

theorem run_append (flow : Flow τ) (first second : List Request) :
    flow.run (first ++ second)
      = ((flow.run first).1 ++ ((flow.run first).2.run second).1, ((flow.run first).2.run second).2) := by
  induction first generalizing flow with
  | nil => simp [run]
  | cons request rest ih => simp [run, ih]

theorem length_run (flow : Flow τ) (requests : List Request) : (flow.run requests).1.length = requests.length := by
  induction requests generalizing flow with
  | nil => rfl
  | cons request rest ih => simp [run, ih]

end Flow

end NamedContent
