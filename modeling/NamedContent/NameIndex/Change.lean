import NamedContent.NameIndex.Tree

/-! Changes to the values of a search tree.

A change follows the path to one name and does to the list of values, while that
is ascending, what its name says. -/

set_option autoImplicit false

namespace NamedContent.NameTree

variable {β : Type} {key : β → Name}

def insert (key : β → Name) (value : β) : NameTree β → NameTree β
  | .leaf => join .leaf value .leaf
  | .node size before held after =>
    if key value < key held then balance (before.insert key value) held after
    else if key value = key held then .node size before value after
    else balance before held (after.insert key value)

def takeFirst? : NameTree β → Option (β × NameTree β)
  | .leaf => none
  | .node _ before value after =>
    match before.takeFirst? with
    | none => some (value, after)
    | some (first, rest) => some (first, balance rest value after)

def append (before after : NameTree β) : NameTree β :=
  match after.takeFirst? with
  | none => before
  | some (first, rest) => balance before first rest

def filter (test : β → Bool) : NameTree β → NameTree β
  | .leaf => .leaf
  | .node _ before value after =>
    if test value then balance (before.filter test) value (after.filter test)
    else (before.filter test).append (after.filter test)

def erase (key : β → Name) (name : Name) : NameTree β → NameTree β
  | .leaf => .leaf
  | .node _ before value after =>
    if name < key value then balance (before.erase key name) value after
    else if name = key value then before.append after
    else balance before value (after.erase key name)

theorem values_insert (value : β) {tree : NameTree β} (ascending : Ascending key tree.values) :
    (tree.insert key value).values = place key value tree.values := by
  induction tree with
  | leaf => rfl
  | node size before held after before_ih after_ih =>
    rw [values_node] at ascending
    obtain ⟨before_ascending, rest_ascending, apart⟩ := List.pairwise_append.mp ascending
    have below : ∀ other ∈ before.values, key other < key held := fun other member =>
      apart other member held List.mem_cons_self
    simp only [insert, values_node]
    split
    · rename_i less
      rw [values_balance, before_ih before_ascending, place_append_of_lt _ _ less]
    · split
      · rename_i notLess same
        rw [values_node, place_append_of_gt _ fun other member => same ▸ below other member, place,
          if_neg notLess, if_pos same]
      · rename_i notLess distinct
        have greater : key held < key value := Std.lt_of_le_of_ne (Std.not_lt.mp notLess) (Ne.symm distinct)
        rw [values_balance, after_ih (List.pairwise_cons.mp rest_ascending).2,
          place_append_of_gt _ fun other member => Std.lt_trans (below other member) greater, place,
          if_neg notLess, if_neg distinct]

theorem sized_insert (value : β) {tree : NameTree β} (sized : tree.Sized) : (tree.insert key value).Sized := by
  induction tree with
  | leaf => exact sized_join value trivial trivial
  | node size before held after before_ih after_ih =>
    obtain ⟨count, before_sized, after_sized⟩ := sized
    simp only [insert]
    split
    · exact sized_balance held (before_ih before_sized) after_sized
    · split
      · exact ⟨count, before_sized, after_sized⟩
      · exact sized_balance held before_sized (after_ih after_sized)

theorem values_takeFirst? (tree : NameTree β) :
    tree.values = match tree.takeFirst? with
      | none => []
      | some (first, rest) => first :: rest.values := by
  induction tree with
  | leaf => rfl
  | node size before value after before_ih after_ih =>
    simp only [values_node, takeFirst?]
    rw [before_ih]
    split <;> simp

theorem sized_takeFirst? {tree rest : NameTree β} {first : β} (sized : tree.Sized)
    (taken : tree.takeFirst? = some (first, rest)) : rest.Sized := by
  induction tree generalizing first rest with
  | leaf => simp [takeFirst?] at taken
  | node size before value after before_ih after_ih =>
    obtain ⟨-, before_sized, after_sized⟩ := sized
    simp only [takeFirst?] at taken
    split at taken
    · cases taken
      exact after_sized
    · rename_i held
      cases taken
      exact sized_balance value (before_ih before_sized held) after_sized

@[simp] theorem values_append (before after : NameTree β) :
    (before.append after).values = before.values ++ after.values := by
  rw [append, values_takeFirst? after]
  split <;> simp

theorem sized_append {before after : NameTree β} (before_sized : before.Sized) (after_sized : after.Sized) :
    (before.append after).Sized := by
  unfold append
  split
  · exact before_sized
  · rename_i taken
    exact sized_balance _ before_sized (sized_takeFirst? after_sized taken)

@[simp] theorem values_filter (test : β → Bool) (tree : NameTree β) :
    (tree.filter test).values = tree.values.filter test := by
  induction tree with
  | leaf => rfl
  | node size before value after before_ih after_ih =>
    simp only [filter, values_node, List.filter_append, List.filter_cons]
    split <;> simp [before_ih, after_ih]

theorem sized_filter (test : β → Bool) {tree : NameTree β} (sized : tree.Sized) : (tree.filter test).Sized := by
  induction tree with
  | leaf => trivial
  | node size before value after before_ih after_ih =>
    obtain ⟨-, before_sized, after_sized⟩ := sized
    simp only [filter]
    split
    · exact sized_balance value (before_ih before_sized) (after_ih after_sized)
    · exact sized_append (before_ih before_sized) (after_ih after_sized)

theorem values_erase (name : Name) {tree : NameTree β} (ascending : Ascending key tree.values) :
    (tree.erase key name).values = tree.values.filter (key · != name) := by
  induction tree with
  | leaf => rfl
  | node size before value after before_ih after_ih =>
    rw [values_node] at ascending
    obtain ⟨before_ascending, rest_ascending, apart⟩ := List.pairwise_append.mp ascending
    obtain ⟨above, after_ascending⟩ := List.pairwise_cons.mp rest_ascending
    -- Values on the far side of the node's own value do not carry the name.
    have keepBefore : key value ≤ name → before.values.filter (key · != name) = before.values := by
      intro least
      refine List.filter_eq_self.mpr fun other member => bne_iff_ne.mpr fun same => ?_
      exact Std.not_lt.mpr least (same ▸ apart other member value List.mem_cons_self)
    have keepAfter : name ≤ key value → after.values.filter (key · != name) = after.values := by
      intro most
      refine List.filter_eq_self.mpr fun other member => bne_iff_ne.mpr fun same => ?_
      exact Std.not_lt.mpr most (same ▸ above other member)
    simp only [erase, values_node, List.filter_append, List.filter_cons]
    split
    · rename_i less
      have distinct : key value ≠ name := fun same => Std.lt_irrefl (same ▸ less)
      simp [before_ih before_ascending, keepAfter (Std.le_of_lt less), distinct]
    · split
      · rename_i notLess same
        subst same
        simp [keepBefore (Std.le_refl _), keepAfter (Std.le_refl _)]
      · rename_i notLess distinct
        simp [after_ih after_ascending, keepBefore (Std.not_lt.mp notLess), Ne.symm distinct]

theorem sized_erase (name : Name) {tree : NameTree β} (sized : tree.Sized) : (tree.erase key name).Sized := by
  induction tree with
  | leaf => trivial
  | node size before value after before_ih after_ih =>
    obtain ⟨-, before_sized, after_sized⟩ := sized
    simp only [erase]
    split
    · exact sized_balance value (before_ih before_sized) after_sized
    · split
      · exact sized_append before_sized after_sized
      · exact sized_balance value before_sized (after_ih after_sized)

end NamedContent.NameTree
