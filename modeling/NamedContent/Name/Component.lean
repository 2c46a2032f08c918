/-! Opaque name components, ordered as byte strings. -/

set_option autoImplicit false

namespace NamedContent

/-- One component of a name: any bytes, possibly none. -/
structure Component where
  bytes : List UInt8
  deriving DecidableEq, Inhabited, Repr

namespace Component

instance : LT Component := ⟨fun first second => first.bytes < second.bytes⟩
instance : LE Component := ⟨fun first second => first.bytes ≤ second.bytes⟩

instance (first second : Component) : Decidable (first < second) :=
  inferInstanceAs (Decidable (first.bytes < second.bytes))

instance (first second : Component) : Decidable (first ≤ second) :=
  inferInstanceAs (Decidable (first.bytes ≤ second.bytes))

theorem lt_def {first second : Component} : first < second ↔ first.bytes < second.bytes := Iff.rfl

theorem le_def {first second : Component} : first ≤ second ↔ first.bytes ≤ second.bytes := Iff.rfl

/-- Components compare byte by byte, and a strict beginning comes first. -/
instance : Std.IsLinearOrder Component where
  le_refl component := List.le_refl component.bytes
  le_trans _ _ _ := List.le_trans
  le_antisymm first second below above := by
    cases first; cases second
    exact congrArg Component.mk (List.le_antisymm below above)
  le_total first second := List.le_total first.bytes second.bytes

instance : Std.LawfulOrderLT Component where
  lt_iff first second := Std.LawfulOrderLT.lt_iff first.bytes second.bytes

end Component

end NamedContent
