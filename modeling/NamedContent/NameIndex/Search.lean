import NamedContent.NameIndex.Tree

/-! Searches in a tree whose values ascend.

A search follows the path to one name. Its answer is what a scan of the list of
values would find. -/

set_option autoImplicit false

namespace NamedContent.NameTree

variable {β : Type} {key : β → Name}

def find? (key : β → Name) (name : Name) : NameTree β → Option β
  | .leaf => none
  | .node _ before value after =>
    if name < key value then before.find? key name
    else if name = key value then some value
    else after.find? key name

/-- The values from a name on, followed by the rest of a list. -/
def prependFrom (key : β → Name) (name : Name) : NameTree β → List β → List β
  | .leaf, rest => rest
  | .node _ before value after, rest =>
    if key value < name then after.prependFrom key name rest
    else before.prependFrom key name (value :: after.prepend rest)

def firstFrom? (key : β → Name) (name : Name) : NameTree β → Option β
  | .leaf => none
  | .node _ before value after =>
    if key value < name then after.firstFrom? key name
    else (before.firstFrom? key name).or (some value)

theorem find?_eq (name : Name) {tree : NameTree β} (ascending : Ascending key tree.values) :
    tree.find? key name = tree.values.find? (key · == name) := by
  induction tree with
  | leaf => rfl
  | node size before value after before_ih after_ih =>
    rw [values_node] at ascending
    obtain ⟨before_ascending, rest_ascending, apart⟩ := List.pairwise_append.mp ascending
    obtain ⟨above, after_ascending⟩ := List.pairwise_cons.mp rest_ascending
    have notBefore : key value ≤ name → before.values.find? (key · == name) = none := by
      intro least
      refine List.find?_eq_none.mpr fun other member same => ?_
      exact Std.not_lt.mpr least (beq_iff_eq.mp same ▸ apart other member value List.mem_cons_self)
    have notAfter : name ≤ key value → after.values.find? (key · == name) = none := by
      intro most
      refine List.find?_eq_none.mpr fun other member same => ?_
      exact Std.not_lt.mpr most (beq_iff_eq.mp same ▸ above other member)
    simp only [find?, values_node, List.find?_append, List.find?_cons]
    split
    · rename_i less
      have distinct : key value ≠ name := fun same => Std.lt_irrefl (same ▸ less)
      simp [before_ih before_ascending, notAfter (Std.le_of_lt less), beq_false_of_ne distinct]
    · split
      · rename_i notLess same
        subst same
        simp [notBefore (Std.le_refl _)]
      · rename_i notLess distinct
        simp [after_ih after_ascending, notBefore (Std.not_lt.mp notLess),
          beq_false_of_ne (Ne.symm distinct)]

theorem prependFrom_eq (name : Name) {tree : NameTree β} (rest : List β)
    (ascending : Ascending key tree.values) :
    tree.prependFrom key name rest = tree.values.dropWhile (key · < name) ++ rest := by
  induction tree generalizing rest with
  | leaf => rfl
  | node size before value after before_ih after_ih =>
    rw [values_node] at ascending
    obtain ⟨before_ascending, rest_ascending, apart⟩ := List.pairwise_append.mp ascending
    simp only [prependFrom, values_node]
    split
    · rename_i less
      rw [List.dropWhile_append_of_pos fun other member =>
        decide_eq_true (Std.lt_trans (apart other member value List.mem_cons_self) less)]
      simp [after_ih rest (List.pairwise_cons.mp rest_ascending).2, less]
    · rename_i notLess
      rw [before_ih _ before_ascending, prepend_eq, List.dropWhile_append]
      split
      · rename_i skipped
        simp [List.isEmpty_iff.mp skipped, notLess]
      · simp

theorem firstFrom?_eq (name : Name) {tree : NameTree β} (ascending : Ascending key tree.values) :
    tree.firstFrom? key name = (tree.values.dropWhile (key · < name)).head? := by
  induction tree with
  | leaf => rfl
  | node size before value after before_ih after_ih =>
    rw [values_node] at ascending
    obtain ⟨before_ascending, rest_ascending, apart⟩ := List.pairwise_append.mp ascending
    simp only [firstFrom?, values_node]
    split
    · rename_i less
      rw [List.dropWhile_append_of_pos fun other member =>
        decide_eq_true (Std.lt_trans (apart other member value List.mem_cons_self) less)]
      simp [after_ih (List.pairwise_cons.mp rest_ascending).2, less]
    · rename_i notLess
      rw [before_ih before_ascending, List.dropWhile_append]
      split
      · rename_i skipped
        simp [List.isEmpty_iff.mp skipped, notLess]
      · rename_i kept
        obtain ⟨first, others, some_kept⟩ := List.exists_cons_of_ne_nil (mt List.isEmpty_iff.mpr kept)
        simp [some_kept]

end NamedContent.NameTree
