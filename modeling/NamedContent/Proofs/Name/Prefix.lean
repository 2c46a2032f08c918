import NamedContent.Name.Basic

/-! Names and their beginnings.

A name with a last component is a child in one way, and the names with one
beginning form one run of the order of names. -/

set_option autoImplicit false

namespace NamedContent

-- The lists that share a beginning form one run of the lexicographic order.
theorem prefix_of_between {α : Type} [LT α] [LE α] [Std.IsLinearOrder α] [Std.LawfulOrderLT α]
    {beginning low high : List α} (above : beginning ≤ low) (below : low ≤ high)
    (begins : beginning <+: high) : beginning <+: low := by
  induction beginning generalizing low high with
  | nil => exact List.nil_prefix
  | cons first beginning ih =>
    obtain ⟨rest, rfl⟩ := begins
    cases low with
    | nil => exact absurd (List.le_nil.mp above) (by simp)
    | cons head low =>
      rw [List.cons_append] at below
      -- The first elements squeeze each other: neither can be strictly below.
      rcases List.cons_le_cons_iff.mp above with less | ⟨rfl, rest_above⟩
      · exact absurd below (List.not_le.mpr (List.cons_lt_cons_iff.mpr (Or.inl less)))
      · rcases List.cons_le_cons_iff.mp below with less | ⟨-, rest_below⟩
        · exact absurd less Std.lt_irrefl
        · exact (List.prefix_cons_inj first).mpr (ih rest_above rest_below (List.prefix_append _ _))

-- A map that keeps the strict order of a linear order reflects it as well.
theorem lt_iff_lt_of_rising {α β : Type} [LT α] [LE α] [Std.IsLinearOrder α] [Std.LawfulOrderLT α]
    [LT β] [LE β] [Std.IsLinearOrder β] [Std.LawfulOrderLT β] (spell : α → β)
    (rising : ∀ {low high}, low < high → spell low < spell high) {first second : α} :
    spell first < spell second ↔ first < second := by
  constructor
  · intro less
    rcases Std.lt_trichotomy first second with below | rfl | above
    · exact below
    · exact absurd less Std.lt_irrefl
    · exact absurd (Std.lt_trans less (rising above)) Std.lt_irrefl
  · exact rising

namespace Name

theorem components_inj {name other : Name} : name.components = other.components ↔ name = other := by
  cases name
  cases other
  simp

theorem length_take_eq (name : Name) (count : Nat) : (name.take count).length = min count name.length :=
  List.length_take

theorem take_of_length_le {name : Name} {count : Nat} (short : name.length ≤ count) : name.take count = name :=
  components_inj.mp (List.take_of_length_le short)

theorem last?_eq_some_iff {name : Name} {component : Component} :
    name.last? = some component ↔ ∃ parent : Name, name = parent.child component := by
  constructor
  · intro last
    obtain ⟨components⟩ := name
    obtain ⟨rest, same⟩ := List.getLast?_eq_some_iff.mp last
    exact ⟨⟨rest⟩, congrArg Name.mk same⟩
  · rintro ⟨parent, rfl⟩
    exact last?_child parent component

theorem parent?_eq_some_iff {name parent : Name} :
    name.parent? = some parent ↔ ∃ component, name = parent.child component := by
  constructor
  · intro parented
    simp only [parent?, Option.ite_none_left_eq_some, Option.some.injEq] at parented
    obtain ⟨notRoot, rfl⟩ := parented
    have nonempty : name.components ≠ [] := mt List.isEmpty_iff.mpr notRoot
    exact ⟨name.components.getLast nonempty, congrArg Name.mk (List.dropLast_concat_getLast nonempty).symm⟩
  · rintro ⟨component, rfl⟩
    exact parent?_child parent component

theorem child_inj {first second : Name} {component other : Component} :
    first.child component = second.child other ↔ first = second ∧ component = other := by
  constructor
  · intro same
    obtain ⟨lists, singles⟩ := List.append_inj' (congrArg components same) rfl
    obtain ⟨first⟩ := first
    obtain ⟨second⟩ := second
    exact ⟨congrArg Name.mk lists, List.singleton_inj.mp singles⟩
  · rintro ⟨rfl, rfl⟩
    rfl

theorem isPrefixOf_trans {first second third : Name} (outer : first.isPrefixOf second = true)
    (inner : second.isPrefixOf third = true) : first.isPrefixOf third = true :=
  isPrefixOf_iff.mpr ((isPrefixOf_iff.mp outer).trans (isPrefixOf_iff.mp inner))

theorem isPrefixOf_child_iff {name parent : Name} {component : Component} :
    name.isPrefixOf (parent.child component) = true ↔ name.isPrefixOf parent = true ∨ name = parent.child component := by
  rw [isPrefixOf_iff, isPrefixOf_iff, ← components_inj, or_comm]
  exact List.prefix_concat_iff

theorem length_le_of_isPrefixOf {first second : Name} (begins : first.isPrefixOf second = true) :
    first.length ≤ second.length :=
  (isPrefixOf_iff.mp begins).length_le

theorem le_of_isPrefixOf {first second : Name} (begins : first.isPrefixOf second = true) : first ≤ second :=
  List.IsPrefix.le (isPrefixOf_iff.mp begins)

theorem isPrefixOf_of_between {beginning low high : Name} (above : beginning ≤ low) (below : low ≤ high)
    (begins : beginning.isPrefixOf high = true) : beginning.isPrefixOf low = true :=
  isPrefixOf_iff.mpr (prefix_of_between above below (isPrefixOf_iff.mp begins))

theorem lt_child (name : Name) (component : Component) : name < name.child component := by
  have below : name ≤ name.child component := le_of_isPrefixOf (isPrefixOf_child name component)
  refine Std.lt_of_le_of_ne below fun same => ?_
  have width := congrArg length same
  rw [length_child] at width
  omega

theorem child_lt_child {name : Name} {first second : Component} (less : first < second) :
    name.child first < name.child second :=
  List.append_left_lt (List.cons_lt_cons_iff.mpr (Or.inl less))

theorem compare_child (name : Name) (first second : Component) :
    compareOfLessAndEq (name.child first) (name.child second) = compareOfLessAndEq first second := by
  simp only [compareOfLessAndEq, lt_iff_lt_of_rising name.child child_lt_child, child_inj, true_and]

def touches (first second : Name) : Bool := first.isPrefixOf second || second.isPrefixOf first

theorem touches_comm (first second : Name) : first.touches second = second.touches first := Bool.or_comm _ _

theorem touches_eq_false_comm {first second : Name} (apart : first.touches second = false) :
    second.touches first = false :=
  (touches_comm second first).trans apart

section Apart
variable {side other : Name}

theorem not_prefix_of_apart (apart : side.touches other = false) {path : List Component}
    (begins : side.components <+: path) : ¬ other.components <+: path := by
  intro also
  have touching : side.touches other = true := by
    rw [touches, Bool.or_eq_true, isPrefixOf_iff, isPrefixOf_iff]
    exact List.prefix_or_prefix_of_prefix begins also
  exact absurd (apart.symm.trans touching) (by simp)

theorem isPrefixOf_eq_false (apart : side.touches other = false) {name : Name}
    (begins : side.isPrefixOf name = true) : other.isPrefixOf name = false := by
  rw [← Bool.not_eq_true, isPrefixOf_iff]
  exact not_prefix_of_apart apart (isPrefixOf_iff.mp begins)

end Apart

end Name

end NamedContent
