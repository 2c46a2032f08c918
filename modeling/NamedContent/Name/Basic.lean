import NamedContent.Name.Component

/-! Names: finite sequences of components.

Names are ordered component by component, a strict beginning first, so the
names that share a beginning form one run starting at that beginning. -/

set_option autoImplicit false

namespace NamedContent

/-- A hierarchical name; the one without components is the root. -/
structure Name where
  components : List Component
  deriving DecidableEq, Inhabited, Repr

namespace Name

instance : LT Name := ⟨fun first second => first.components < second.components⟩
instance : LE Name := ⟨fun first second => first.components ≤ second.components⟩

instance (first second : Name) : Decidable (first < second) :=
  inferInstanceAs (Decidable (first.components < second.components))

instance (first second : Name) : Decidable (first ≤ second) :=
  inferInstanceAs (Decidable (first.components ≤ second.components))

theorem lt_def {first second : Name} : first < second ↔ first.components < second.components := Iff.rfl

theorem le_def {first second : Name} : first ≤ second ↔ first.components ≤ second.components := Iff.rfl

instance : Std.IsLinearOrder Name where
  le_refl name := Std.IsPreorder.le_refl name.components
  le_trans first second third := Std.IsPreorder.le_trans first.components second.components third.components
  le_antisymm first second below above := by
    cases first; cases second
    exact congrArg Name.mk (Std.IsPartialOrder.le_antisymm _ _ below above)
  le_total first second := Std.IsLinearPreorder.le_total first.components second.components

instance : Std.LawfulOrderLT Name where
  lt_iff first second := Std.LawfulOrderLT.lt_iff first.components second.components

def root : Name := ⟨[]⟩

def ofBytes (parts : List (List UInt8)) : Name := ⟨parts.map Component.mk⟩

def length (name : Name) : Nat := name.components.length

def isRoot (name : Name) : Bool := name.components.isEmpty

def component? (name : Name) (position : Nat) : Option Component := name.components[position]?

def last? (name : Name) : Option Component := name.components.getLast?

def child (name : Name) (component : Component) : Name := ⟨name.components ++ [component]⟩

def append (name : Name) (components : List Component) : Name := ⟨name.components ++ components⟩

def parent? (name : Name) : Option Name :=
  if name.isRoot then none else some ⟨name.components.dropLast⟩

def take (name : Name) (count : Nat) : Name := ⟨name.components.take count⟩

def isPrefixOf (name other : Name) : Bool := name.components.isPrefixOf other.components

/-- Compares the first `limit` components. A limit beyond the length of `name`
compares whole names, which then must have one length. -/
def equalsUpTo (name other : Name) (limit : Nat) : Bool :=
  if limit > name.length ∧ other.length ≠ name.length then false
  else
    let common := min (min limit name.length) other.length
    name.components.take common == other.components.take common

theorem isPrefixOf_iff {name other : Name} :
    name.isPrefixOf other = true ↔ name.components <+: other.components :=
  List.isPrefixOf_iff_prefix

@[simp] theorem length_root : root.length = 0 := rfl

@[simp] theorem length_child (name : Name) (component : Component) :
    (name.child component).length = name.length + 1 := by
  simp [length, child]

@[simp] theorem last?_child (name : Name) (component : Component) :
    (name.child component).last? = some component := by
  simp [last?, child]

@[simp] theorem parent?_child (name : Name) (component : Component) :
    (name.child component).parent? = some name := by
  simp [parent?, child, isRoot]

@[simp] theorem isPrefixOf_refl (name : Name) : name.isPrefixOf name = true :=
  isPrefixOf_iff.mpr (List.prefix_refl _)

theorem isPrefixOf_child (name : Name) (component : Component) :
    name.isPrefixOf (name.child component) = true :=
  isPrefixOf_iff.mpr (List.prefix_append _ _)

end Name

end NamedContent
