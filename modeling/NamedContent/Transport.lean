import NamedContent.Content.Object

/-! Carriers that take objects away.

Objects are lent, so one that was not taken stays with the lender. A carrier
may change also when it refuses. -/

set_option autoImplicit false

namespace NamedContent

inductive TransportError where
  | disconnected
  deriving DecidableEq, Repr

def TransportError.message : TransportError → String
  | .disconnected => "transport is disconnected"

class Transport (τ : Type) where
  /-- Hands an object over: whether it was taken, and the carrier afterwards. -/
  deliver : τ → ContentObject → Except TransportError Unit × τ

instance : Transport (List ContentObject) where
  deliver taken object := (.ok (), taken ++ [object])

/-- A carrier that records what it takes and may have a quota. -/
structure Recorder where
  taken : List ContentObject
  /-- How many more objects it takes; without it there is no limit. -/
  quota : Option Nat
  deriving DecidableEq, Repr

namespace Recorder

def new : Recorder := ⟨[], none⟩

def deliver (recorder : Recorder) (object : ContentObject) : Except TransportError Unit × Recorder :=
  match recorder.quota with
  | some 0 => (.error .disconnected, recorder)
  | some (left + 1) => (.ok (), ⟨recorder.taken ++ [object], some left⟩)
  | none => (.ok (), ⟨recorder.taken ++ [object], none⟩)

instance : Transport Recorder := ⟨deliver⟩

end Recorder

end NamedContent
