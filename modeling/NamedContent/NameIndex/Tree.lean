import NamedContent.NameIndex.Ascending

/-! Search trees for values that each carry a name.

A tree stands for the list of its values from left to right. Turning a node keeps
that list, and shortens the paths of a tree that has grown to one side. -/

set_option autoImplicit false

namespace NamedContent

inductive NameTree (β : Type) where
  | leaf
  | node (size : Nat) (before : NameTree β) (value : β) (after : NameTree β)

namespace NameTree

variable {β : Type}

def size : NameTree β → Nat
  | .leaf => 0
  | .node size .. => size

def Sized : NameTree β → Prop
  | .leaf => True
  | .node size before _ after => size = before.size + after.size + 1 ∧ before.Sized ∧ after.Sized

/-- The values followed by the rest of a list, in one pass. -/
def prepend : NameTree β → List β → List β
  | .leaf, rest => rest
  | .node _ before value after, rest => before.prepend (value :: after.prepend rest)

def values (tree : NameTree β) : List β := tree.prepend []

theorem prepend_eq (tree : NameTree β) (rest : List β) : tree.prepend rest = tree.values ++ rest := by
  induction tree generalizing rest with
  | leaf => rfl
  | node size before value after before_ih after_ih =>
    simp only [values, prepend]
    rw [before_ih, after_ih, before_ih (value :: after.prepend []), after_ih []]
    simp

@[simp] theorem values_leaf : (leaf : NameTree β).values = [] := rfl

@[simp] theorem values_node (size : Nat) (before : NameTree β) (value : β) (after : NameTree β) :
    (node size before value after).values = before.values ++ value :: after.values := by
  rw [values, prepend, prepend_eq]
  rfl

theorem length_values {tree : NameTree β} (sized : tree.Sized) : tree.values.length = tree.size := by
  induction tree with
  | leaf => rfl
  | node size before value after before_ih after_ih =>
    obtain ⟨count, before_sized, after_sized⟩ := sized
    rw [values_node, List.length_append, List.length_cons, before_ih before_sized, after_ih after_sized]
    exact count.symm

def join (before : NameTree β) (value : β) (after : NameTree β) : NameTree β :=
  .node (before.size + after.size + 1) before value after

def turnLeft (before : NameTree β) (value : β) : NameTree β → NameTree β
  | .leaf => join before value .leaf
  | .node _ .leaf middle outer => join (join before value .leaf) middle outer
  | .node _ (.node size first centre second) middle outer =>
    if size < 2 * outer.size then join (join before value (.node size first centre second)) middle outer
    else join (join before value first) centre (join second middle outer)

def turnRight (value : β) (after : NameTree β) : NameTree β → NameTree β
  | .leaf => join .leaf value after
  | .node _ outer middle .leaf => join outer middle (join .leaf value after)
  | .node _ outer middle (.node size first centre second) =>
    if size < 2 * outer.size then join outer middle (join (.node size first centre second) value after)
    else join (join outer middle first) centre (join second value after)

/-- A node, turned if one tree is more than three times as large as the other. -/
def balance (before : NameTree β) (value : β) (after : NameTree β) : NameTree β :=
  if before.size + after.size ≤ 1 then join before value after
  else if 3 * before.size < after.size then turnLeft before value after
  else if 3 * after.size < before.size then turnRight value after before
  else join before value after

@[simp] theorem values_join (before : NameTree β) (value : β) (after : NameTree β) :
    (join before value after).values = before.values ++ value :: after.values :=
  values_node ..

@[simp] theorem values_turnLeft (before : NameTree β) (value : β) (after : NameTree β) :
    (turnLeft before value after).values = before.values ++ value :: after.values := by
  unfold turnLeft
  split
  · simp
  · simp
  · split <;> simp

@[simp] theorem values_turnRight (before : NameTree β) (value : β) (after : NameTree β) :
    (turnRight value after before).values = before.values ++ value :: after.values := by
  unfold turnRight
  split
  · simp
  · simp
  · split <;> simp

@[simp] theorem values_balance (before : NameTree β) (value : β) (after : NameTree β) :
    (balance before value after).values = before.values ++ value :: after.values := by
  unfold balance
  split
  · simp
  · split
    · simp
    · split <;> simp

theorem sized_join {before after : NameTree β} (value : β) (before_sized : before.Sized)
    (after_sized : after.Sized) : (join before value after).Sized :=
  ⟨rfl, before_sized, after_sized⟩

theorem sized_turnLeft {before after : NameTree β} (value : β) (before_sized : before.Sized)
    (after_sized : after.Sized) : (turnLeft before value after).Sized := by
  unfold turnLeft
  split
  · exact sized_join value before_sized trivial
  · exact sized_join _ (sized_join value before_sized trivial) after_sized.2.2
  · obtain ⟨-, inner_sized, outer_sized⟩ := after_sized
    split
    · exact sized_join _ (sized_join _ before_sized inner_sized) outer_sized
    · obtain ⟨-, first_sized, second_sized⟩ := inner_sized
      exact sized_join _ (sized_join _ before_sized first_sized) (sized_join _ second_sized outer_sized)

theorem sized_turnRight {before after : NameTree β} (value : β) (before_sized : before.Sized)
    (after_sized : after.Sized) : (turnRight value after before).Sized := by
  unfold turnRight
  split
  · exact sized_join value trivial after_sized
  · exact sized_join _ before_sized.2.1 (sized_join value trivial after_sized)
  · obtain ⟨-, outer_sized, inner_sized⟩ := before_sized
    split
    · exact sized_join _ outer_sized (sized_join _ inner_sized after_sized)
    · obtain ⟨-, first_sized, second_sized⟩ := inner_sized
      exact sized_join _ (sized_join _ outer_sized first_sized) (sized_join _ second_sized after_sized)

theorem sized_balance {before after : NameTree β} (value : β) (before_sized : before.Sized)
    (after_sized : after.Sized) : (balance before value after).Sized := by
  unfold balance
  split
  · exact sized_join value before_sized after_sized
  · split
    · exact sized_turnLeft value before_sized after_sized
    · split
      · exact sized_turnRight value before_sized after_sized
      · exact sized_join value before_sized after_sized

end NameTree

end NamedContent
