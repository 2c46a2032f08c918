import NamedContent.NameIndex.Change
import NamedContent.NameIndex.Search

/-! Collections of values by a name that each of them carries.

A collection is the ascending list of its values, held in a search tree: trees
of the same list are the same collection. No two values carry the same name.
The values whose names begin with a given one are neighbours, so they are found
by a scan that starts at that name and stops at the first value elsewhere. -/

set_option autoImplicit false

namespace NamedContent

/-- A search tree of ascending values, with their number noted at every node. -/
structure OrderedTree {β : Type} (key : β → Name) where
  tree : NameTree β
  ascending : Ascending key tree.values
  sized : tree.Sized

def sameValues {β : Type} (key : β → Name) : Setoid (OrderedTree key) where
  r first second := first.tree.values = second.tree.values
  iseqv := ⟨fun _ => rfl, Eq.symm, Eq.trans⟩

/-- A finite collection of values, one for each name. -/
def NameIndex {β : Type} (key : β → Name) : Type := Quotient (sameValues key)

namespace NameIndex

variable {β : Type} {key : β → Name}

def ofTree (tree : NameTree β) (ascending : Ascending key tree.values) (sized : tree.Sized) : NameIndex key :=
  Quotient.mk (sameValues key) ⟨tree, ascending, sized⟩

def values (index : NameIndex key) : List β :=
  Quotient.lift (fun held => held.tree.values) (fun _ _ same => same) index

@[ext] theorem ext {first second : NameIndex key} (same : first.values = second.values) : first = second := by
  induction first using Quotient.ind
  induction second using Quotient.ind
  exact Quotient.sound same

instance [DecidableEq β] : DecidableEq (NameIndex key) := fun first second =>
  decidable_of_iff (first.values = second.values) ⟨ext, congrArg values⟩

theorem ascending (index : NameIndex key) : Ascending key index.values := by
  induction index using Quotient.ind with
  | _ held => exact held.ascending

def empty : NameIndex key := ofTree .leaf .nil trivial

@[simp] theorem values_empty : (empty : NameIndex key).values = [] := rfl

def size (index : NameIndex key) : Nat :=
  Quotient.lift (fun held => held.tree.size)
    (fun first second same => by
      rw [← NameTree.length_values first.sized, ← NameTree.length_values second.sized]
      exact congrArg List.length same)
    index

theorem size_eq (index : NameIndex key) : index.size = index.values.length := by
  induction index using Quotient.ind with
  | _ held => exact (NameTree.length_values held.sized).symm

def find? (index : NameIndex key) (name : Name) : Option β :=
  Quotient.lift (fun held => held.tree.find? key name)
    (fun first second same => by
      rw [NameTree.find?_eq name first.ascending, NameTree.find?_eq name second.ascending]
      exact congrArg (List.find? _) same)
    index

theorem find?_eq (index : NameIndex key) (name : Name) :
    index.find? name = index.values.find? (key · == name) := by
  induction index using Quotient.ind with
  | _ held => exact NameTree.find?_eq name held.ascending

def contains (index : NameIndex key) (name : Name) : Bool := (index.find? name).isSome

def insert (index : NameIndex key) (value : β) : NameIndex key :=
  Quotient.lift
    (fun held => ofTree (held.tree.insert key value)
      (NameTree.values_insert value held.ascending ▸ held.ascending.place value)
      (NameTree.sized_insert value held.sized))
    (fun first second same => ext (by
      refine (NameTree.values_insert value first.ascending).trans ?_
      exact (congrArg (place key value) same).trans (NameTree.values_insert value second.ascending).symm))
    index

@[simp] theorem values_insert (index : NameIndex key) (value : β) :
    (index.insert value).values = place key value index.values := by
  induction index using Quotient.ind with
  | _ held => exact NameTree.values_insert value held.ascending

def filter (index : NameIndex key) (test : β → Bool) : NameIndex key :=
  Quotient.lift
    (fun held => ofTree (held.tree.filter test)
      (NameTree.values_filter test held.tree ▸ held.ascending.filter test)
      (NameTree.sized_filter test held.sized))
    (fun first second same => ext (by
      refine (NameTree.values_filter test first.tree).trans ?_
      exact (congrArg (List.filter test) same).trans (NameTree.values_filter test second.tree).symm))
    index

@[simp] theorem values_filter (index : NameIndex key) (test : β → Bool) :
    (index.filter test).values = index.values.filter test := by
  induction index using Quotient.ind with
  | _ held => exact NameTree.values_filter test held.tree

def erase (index : NameIndex key) (name : Name) : NameIndex key :=
  Quotient.lift
    (fun held => ofTree (held.tree.erase key name)
      (NameTree.values_erase name held.ascending ▸ held.ascending.filter _)
      (NameTree.sized_erase name held.sized))
    (fun first second same => ext (by
      refine (NameTree.values_erase name first.ascending).trans ?_
      exact (congrArg (List.filter _) same).trans (NameTree.values_erase name second.ascending).symm))
    index

@[simp] theorem values_erase (index : NameIndex key) (name : Name) :
    (index.erase name).values = index.values.filter (key · != name) := by
  induction index using Quotient.ind with
  | _ held => exact NameTree.values_erase name held.ascending

def startingAt (index : NameIndex key) (name : Name) : List β :=
  Quotient.lift (fun held => held.tree.prependFrom key name [])
    (fun first second same => by
      rw [NameTree.prependFrom_eq name [] first.ascending, NameTree.prependFrom_eq name [] second.ascending]
      exact congrArg (fun values : List β => values.dropWhile (key · < name) ++ []) same)
    index

theorem startingAt_eq (index : NameIndex key) (name : Name) :
    index.startingAt name = index.values.dropWhile (key · < name) := by
  induction index using Quotient.ind with
  | _ held => exact (NameTree.prependFrom_eq name [] held.ascending).trans (List.append_nil _)

def firstFrom? (index : NameIndex key) (name : Name) : Option β :=
  Quotient.lift (fun held => held.tree.firstFrom? key name)
    (fun first second same => by
      rw [NameTree.firstFrom?_eq name first.ascending, NameTree.firstFrom?_eq name second.ascending]
      exact congrArg (fun values : List β => (values.dropWhile (key · < name)).head?) same)
    index

theorem firstFrom?_eq (index : NameIndex key) (name : Name) :
    index.firstFrom? name = (index.startingAt name).head? := by
  rw [startingAt_eq]
  induction index using Quotient.ind with
  | _ held => exact NameTree.firstFrom?_eq name held.ascending

def under (index : NameIndex key) (name : Name) : List β :=
  (index.startingAt name).takeWhile (name.isPrefixOf <| key ·)

/-- Whether any name begins with `name`; the first from there on decides. -/
def anyUnder (index : NameIndex key) (name : Name) : Bool :=
  (index.firstFrom? name).any (name.isPrefixOf <| key ·)

end NameIndex

end NamedContent
