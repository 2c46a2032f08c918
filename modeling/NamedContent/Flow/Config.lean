import NamedContent.Time.Duration

/-! The settings of a flow. -/

set_option autoImplicit false

namespace NamedContent

structure FlowConfig where
  highwater : Nat
  /-- How long a put waits for room before it reports that there is none. -/
  putWait : Duration
  drainTimeout : Duration
  /-- How long a pending interest is kept; without it, until it is satisfied. -/
  interestLifetime : Option Duration
  strictSegmentOrder : Bool
  strictClose : Bool
  deriving DecidableEq, Repr

def FlowConfig.standard : FlowConfig where
  highwater := 128
  putWait := .zero
  drainTimeout := .ofSeconds 10
  interestLifetime := some (.ofSeconds 4)
  strictSegmentOrder := true
  strictClose := false

end NamedContent
