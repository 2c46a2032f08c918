import NamedContent.Failure
import NamedContent.Flow.Config
import NamedContent.NameIndex.Basic
import NamedContent.Name.Numbered
import NamedContent.Table.Basic

/-! The producer side of the exchange of content for interests.

Objects and interests meet in a flow: whichever comes second finds the first,
and the object goes to the transport. Nothing waits or reads a clock; every
operation that needs the time is given it. -/

set_option autoImplicit false

namespace NamedContent

structure Pending where
  /-- The number of interests registered before, of which there are fewer than 2 ^ 64. -/
  seq : Nat
  deadline : Option Timestamp
  deriving DecidableEq, Repr

/-- How far a stream has moved. -/
structure Mark where
  stream : Name
  segment : UInt64
  touched : Timestamp
  deriving DecidableEq, Repr

abbrev Buffer : Type := NameIndex (fun object : ContentObject => object.name)

abbrev Marks : Type := NameIndex Mark.stream

structure Flow (τ : Type) where
  config : FlowConfig
  transport : τ
  /-- The registered namespaces in the order they came, none twice. -/
  namespaces : List Name
  buffer : Buffer
  pending : Table Pending
  marks : Marks
  /-- The latest time any put or batch of interests was given. -/
  now : Timestamp
  /-- The number of interests registered so far. A counter of one machine word
  shows the same up to 2 ^ 64 registrations, and no flow is asked more often. -/
  nextSeq : Nat
  enabled : Bool
  closed : Bool
  deriving DecidableEq

namespace Flow

variable {τ : Type}

def new (config : FlowConfig) (transport : τ) : Flow τ where
  config := config
  transport := transport
  namespaces := []
  buffer := .empty
  pending := .empty
  marks := .empty
  now := .zero
  nextSeq := 0
  enabled := true
  closed := false

def covers (flow : Flow τ) (name : Name) : Bool := flow.namespaces.any (·.isPrefixOf name)

/-- Whether content under some registered namespace could answer to a name. -/
def overlaps (flow : Flow τ) (name : Name) : Bool :=
  flow.namespaces.any fun held => held.isPrefixOf name || name.isPrefixOf held

def addNamespace (flow : Flow τ) (name : Name) : Flow τ :=
  if flow.namespaces.contains name then flow else { flow with namespaces := flow.namespaces ++ [name] }

/-- Drops a namespace and the marks of streams that no other one covers.
Answers whether it was registered. -/
def removeNamespace (flow : Flow τ) (name : Name) : Bool × Flow τ :=
  let rest := { flow with namespaces := flow.namespaces.filter (· != name) }
  if rest.namespaces.length = flow.namespaces.length then (false, flow)
  else (true, { rest with marks := flow.marks.filter fun mark => rest.covers mark.stream })

def setHighwater (flow : Flow τ) (highwater : Nat) : Flow τ :=
  { flow with config := { flow.config with highwater := highwater } }

def setDrainTimeout (flow : Flow τ) (timeout : Duration) : Flow τ :=
  { flow with config := { flow.config with drainTimeout := timeout } }

def setEnabled (flow : Flow τ) (enabled : Bool) : Flow τ := { flow with enabled := enabled }

def isBuffered (flow : Flow τ) (name : Name) : Bool := flow.buffer.contains name

/-- The highest segment of a stream that went to the transport, while it is remembered. -/
def lowWater? (flow : Flow τ) (stream : Name) : Option UInt64 := (flow.marks.find? stream).map Mark.segment

/-- Forgets everything undelivered and refuses further puts. Answers how many
objects were dropped. -/
def close (flow : Flow τ) : Nat × Flow τ :=
  (flow.buffer.size,
    { flow with buffer := .empty, pending := flow.pending.clear.2, marks := .empty, closed := true })

end Flow

end NamedContent
