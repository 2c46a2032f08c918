import NamedContent.Transport

/-! Why an operation failed, and how that is worded. -/

set_option autoImplicit false

namespace NamedContent

inductive Failure where
  | outsideNamespaces (name : Name)
  | capacity (highwater : Nat)
  | drainTimeout (remaining : Nat) (waited : Duration)
  | timeout (name : Name) (waited : Duration)
  | malformedName (fault : Malformed)
  | transport (error : TransportError)
  | closed
  /-- A client broke off while it held the shared state. -/
  | poisoned
  deriving DecidableEq, Repr

def Failure.message : Failure → String
  | .outsideNamespaces name => s!"{name} is outside every registered namespace"
  | .capacity highwater => s!"buffer is full at highwater {highwater}"
  | .drainTimeout remaining waited => s!"{remaining} objects still buffered after {waited.text}"
  | .timeout name waited => s!"nothing arrived for {name} within {waited.text}"
  | .malformedName fault => fault.message
  | .transport error => error.message
  | .closed => "flow controller is closed"
  | .poisoned => "shared state is poisoned"

end NamedContent
