import Mathlib.Data.List.Perm.Basic
import NamedContent.Proofs.Table.Sweeping

/-! Tables that come about by changes.

However a table was changed, siblings ascend, no tree is bare, every entry is
filed under its own name, and the table counts its entries and names right. Such
a table is determined by the entries of every name. -/

set_option autoImplicit false

namespace NamedContent

variable {V σ : Type}

inductive Change (V : Type) : Type 1 where
  | addName (name : Name) (value : V)
  | addInterest (interest : Interest) (value : V)
  | removeName (name : Name) (value : V)
  | removeInterest (interest : Interest) (value : V)
  | removeMatch (target : Target)
  | removeMatches (target : Target)
  | retain {σ : Type} (keep : Entry V → σ → Bool × σ) (state : σ)
  | clear

namespace Table

variable {table : Table V}

/-- A way to part entries into those to take and those to keep. -/
def Parts (select : List (Entry V) → List (Entry V) × List (Entry V)) : Prop :=
  ∀ held, ((select held).1 ++ (select held).2).Perm held

theorem parts_selectFirst (test : Entry V → Bool) : Parts (selectFirst test) := by
  intro held
  unfold selectFirst
  induction held with
  | nil => exact .nil
  | cons first rest ih =>
    by_cases passes : test first = true
    · simp [List.find?_cons_of_pos passes, List.eraseP_cons_of_pos passes]
    · rw [List.find?_cons_of_neg passes, List.eraseP_cons_of_neg passes]
      exact List.perm_middle.trans (ih.cons first)

theorem parts_partition (test : Entry V → Bool) : Parts (List.partition test) := by
  intro held
  rw [List.partition_eq_filter_filter]
  exact List.filter_append_perm test held

section Parts
variable {select : List (Entry V) → List (Entry V) × List (Entry V)}

theorem Parts.perm_extract (parts : Parts select) (ordered : table.forest.Ordered) (path : List Component) :
    ((table.extract path select).1 ++ (table.extract path select).2.toList).Perm table.toList := by
  obtain ⟨front, back, stands, replaced⟩ := exists_toList_setEntries ordered path
  have left : (table.extract path select).2.toList = front ++ (select (table.entriesAt path)).2 ++ back := replaced _
  have taken : (table.extract path select).1 = (select (table.entriesAt path)).1 := rfl
  rw [left, taken, stands, List.append_assoc, List.append_assoc]
  refine (List.perm_append_comm_assoc _ _ _).trans (List.Perm.append_left front ?_)
  rw [← List.append_assoc]
  exact (parts _).append_right back

theorem Parts.mem_kept (parts : Parts select) (held : List (Entry V)) : ∀ entry ∈ (select held).2, entry ∈ held :=
  fun _ kept => (parts held).subset (List.mem_append_right _ kept)

end Parts

theorem perm_removeInterest [DecidableEq V] (wellFormed : table.WellFormed) {interest : Interest} {value : V}
    (member : .interest interest value ∈ table.toList) :
    (.interest interest value :: (table.removeInterest interest value).2.toList).Perm table.toList := by
  let chooses (entry : Entry V) : Bool := entry.interest? == some interest && entry.value == value
  have found : (table.entriesAt interest.name.components).find? chooses = some (.interest interest value) :=
    (find?_sought_iff wellFormed).mpr member
  have taken : (table.extract interest.name.components (selectFirst chooses)).1 = [.interest interest value] :=
    congrArg Option.toList found
  have parted := (parts_selectFirst chooses).perm_extract wellFormed.ordered interest.name.components
  rwa [taken] at parted

def extractAll (table : Table V) (steps : List (List Component × (Entry V → Bool))) : Table V :=
  steps.foldl (fun table step => (table.extract step.1 (List.partition step.2)).2) table

def matchDepths (table : Table V) (target : Target) : List Nat :=
  ((table.along target.path).zipIdx.filter fun (entries, _) => entries.any (·.matchesTarget target)).map Prod.snd

theorem removeMatch_eq (table : Table V) (target : Target) :
    table.removeMatch target
      = match (table.matchDepths target).getLast? with
        | none => (none, table)
        | some depth =>
          let (removed, table) := table.extract (target.path.take depth) (selectFirst (·.matchesTarget target))
          (removed.head?, table) := by
  rw [removeMatch, matchDepths, List.getLast?_map]
  dsimp only
  cases List.getLast? _ <;> rfl

theorem removeMatches_eq (table : Table V) (target : Target) :
    (table.removeMatches target).2
      = table.extractAll ((table.matchDepths target).map fun depth => (target.path.take depth, (·.matchesTarget target))) := by
  rw [removeMatches, matchDepths]
  dsimp only
  generalize List.filter _ _ = depths
  generalize ([] : List (Entry V)) = removed
  induction depths generalizing table removed with
  | nil => rfl
  | cons first rest ih => exact ih _ _

/-! The shape and the counts of a table. -/

/-- Siblings ascend, no tree is bare, every entry is filed under its own name,
and the numbers of entries and of names are those noted. -/
structure Canonical (table : Table V) : Prop extends WellFormed table where
  pruned : table.forest.Pruned
  sized : table.size = table.toList.length
  named : table.nameCount = table.occupied

theorem WellFormed.card_names (wellFormed : table.WellFormed) :
    (table.toList.map Entry.name).toFinset.card = table.occupied := by
  have filed := wellFormed.filed_forest
  have here : ∀ entry ∈ table.rootEntries, entry.name = .root := fun _ => wellFormed.root_named
  -- The root name is that of no entry in the forest.
  have apart : Disjoint (table.forest.toList.map Entry.name).toFinset (table.rootEntries.map Entry.name).toFinset := by
    simp only [Finset.disjoint_left, List.mem_toFinset, List.mem_map]
    rintro name ⟨entry, member, rfl⟩ ⟨other, held, same⟩
    obtain ⟨label, path, -, named⟩ := filed.of_mem_toList wellFormed.ordered member
    rw [← same, here other held] at named
    exact absurd named (by simp [Name.root])
  rw [toList, List.map_append, List.toFinset_append, Finset.card_union_of_disjoint apart,
    Forest.card_names wellFormed.ordered filed, Forest.card_names_here here, occupied]

section SetEntries
variable (path : List Component) (entries : List (Entry V))

theorem occupied_setEntries (ordered : table.forest.Ordered) :
    (table.setEntries path entries).occupied + Forest.occupied (table.entriesAt path)
      = table.occupied + Forest.occupied entries := by
  cases path with
  | nil =>
    simp only [setEntries, occupied, entriesAt]
    omega
  | cons label path =>
    have inner := Forest.nameCount_setEntries ordered entries label path
    simp only [setEntries, occupied, entriesAt]
    omega

theorem pruned_setEntries (pruned : table.forest.Pruned) : (table.setEntries path entries).forest.Pruned := by
  cases path with
  | nil => exact pruned
  | cons label path => exact pruned.setEntries entries label path

end SetEntries

theorem occupied_entriesAt_le (table : Table V) (path : List Component) (ordered : table.forest.Ordered) :
    Forest.occupied (table.entriesAt path) ≤ table.occupied := by
  have emptied := occupied_setEntries path [] ordered
  rw [Forest.occupied_nil] at emptied
  omega

namespace Canonical

theorem empty : (empty : Table V).Canonical where
  toWellFormed := wellFormed_empty
  pruned := trivial
  sized := rfl
  named := rfl

theorem add (canonical : table.Canonical) (entry : Entry V) : (table.add entry).Canonical where
  toWellFormed := canonical.toWellFormed.add entry
  pruned := pruned_setEntries _ _ canonical.pruned
  sized := by
    have longer : (table.add entry).toList.length = table.toList.length + 1 :=
      (table.perm_add canonical.ordered entry).length_eq
    rw [longer, ← canonical.sized]
    rfl
  named := by
    have change := occupied_setEntries entry.name.components (table.entriesAt entry.name.components ++ [entry])
      canonical.ordered
    have one : Forest.occupied (table.entriesAt entry.name.components ++ [entry]) = 1 := by simp [Forest.occupied]
    have grown : (table.add entry).occupied
        = (table.setEntries entry.name.components (table.entriesAt entry.name.components ++ [entry])).occupied := rfl
    have noted : (table.add entry).nameCount
        = table.nameCount + if (table.entriesAt entry.name.components).isEmpty then 1 else 0 := rfl
    rw [noted, grown, canonical.named]
    cases held : table.entriesAt entry.name.components <;> simp_all [Forest.occupied]

section Extract
variable {select : List (Entry V) → List (Entry V) × List (Entry V)}

theorem length_extract_le (canonical : table.Canonical) (parts : Parts select) (path : List Component) :
    (table.extract path select).1.length ≤ table.size := by
  have parted := (parts.perm_extract canonical.ordered path).length_eq
  rw [List.length_append] at parted
  rw [canonical.sized]
  omega

theorem nameCount_pos (canonical : table.Canonical) {path : List Component} (found : table.entriesAt path ≠ []) :
    0 < table.nameCount := by
  have within := table.occupied_entriesAt_le path canonical.ordered
  rw [canonical.named]
  cases held : table.entriesAt path with
  | nil => exact absurd held found
  | cons first rest =>
    rw [held] at within
    exact Nat.lt_of_succ_le within

theorem extract (canonical : table.Canonical) (parts : Parts select) (path : List Component) :
    (table.extract path select).2.Canonical where
  toWellFormed := canonical.toWellFormed.extract path parts.mem_kept
  pruned := pruned_setEntries _ _ canonical.pruned
  sized := by
    have parted := (parts.perm_extract canonical.ordered path).length_eq
    have noted : (table.extract path select).2.size = table.size - (table.extract path select).1.length := rfl
    rw [List.length_append] at parted
    rw [noted, canonical.sized]
    omega
  named := by
    have change := occupied_setEntries path (select (table.entriesAt path)).2 canonical.ordered
    have parted := parts (table.entriesAt path)
    have noted : (table.extract path select).2.nameCount = table.nameCount
        - if (table.entriesAt path).isEmpty || !(select (table.entriesAt path)).2.isEmpty then 0 else 1 := rfl
    have rest : (table.extract path select).2.occupied
        = (table.setEntries path (select (table.entriesAt path)).2).occupied := rfl
    rw [noted, rest, canonical.named]
    cases held : table.entriesAt path with
    | nil =>
      rw [held] at change parted
      have nothing := (List.append_eq_nil_iff.mp parted.eq_nil).2
      simpa [nothing] using change.symm
    | cons first others =>
      rw [held] at change
      cases kept : (select (first :: others)).2 <;> simp_all [Forest.occupied]
      omega

theorem extractAll (canonical : table.Canonical) (steps : List (List Component × (Entry V → Bool))) :
    (table.extractAll steps).Canonical := by
  induction steps generalizing table with
  | nil => exact canonical
  | cons step rest ih => exact ih (canonical.extract (parts_partition step.2) step.1)

end Extract

theorem removeMatch (canonical : table.Canonical) (target : Target) : (table.removeMatch target).2.Canonical := by
  rw [removeMatch_eq]
  split
  · exact canonical
  · exact canonical.extract (parts_selectFirst _) _

theorem removeMatches (canonical : table.Canonical) (target : Target) :
    (table.removeMatches target).2.Canonical := by
  rw [removeMatches_eq]
  exact canonical.extractAll _

theorem retain (canonical : table.Canonical) (keep : Entry V → σ → Bool × σ) (state : σ) :
    (table.retain keep state).2.2.Canonical where
  toWellFormed := canonical.toWellFormed.retain keep state
  pruned := canonical.pruned.retain keep _
  sized := by
    have change := table.removed_sweep keep state
    rw [size_retain, canonical.sized]
    omega
  named := by
    have change := table.emptied_sweep keep state
    rw [nameCount_retain, canonical.named]
    omega

theorem ext {first second : Table V} (first_canonical : first.Canonical) (second_canonical : second.Canonical)
    (same : ∀ path, first.entriesAt path = second.entriesAt path) : first = second := by
  have roots : first.rootEntries = second.rootEntries := same []
  have forests : first.forest = second.forest :=
    Forest.ext_entriesAt first_canonical.ordered second_canonical.ordered first_canonical.pruned
      second_canonical.pruned fun label path => same (label :: path)
  have sizes : first.size = second.size := by
    rw [first_canonical.sized, second_canonical.sized, toList, toList, roots, forests]
  have counts : first.nameCount = second.nameCount := by
    rw [first_canonical.named, second_canonical.named, occupied, occupied, roots, forests]
  obtain ⟨firstRoot, firstForest, firstSize, firstCount⟩ := first
  obtain ⟨secondRoot, secondForest, secondSize, secondCount⟩ := second
  simp only at roots forests sizes counts
  rw [roots, forests, sizes, counts]

theorem filter_filter (canonical : table.Canonical) {first second : Entry V → Bool}
    (narrower : ∀ entry, second entry = true → first entry = true) :
    (table.filter first).filter second = table.filter second := by
  have once : (table.filter first).Canonical := canonical.retain _ _
  refine (once.retain _ _).ext (canonical.retain _ _) fun path => ?_
  change ((table.filter first).filter second).entriesAt path = (table.filter second).entriesAt path
  rw [entriesAt_filter once.ordered, entriesAt_filter canonical.ordered, entriesAt_filter canonical.ordered,
    List.filter_filter]
  exact List.filter_congr fun entry _ => by simpa using narrower entry

theorem filter_add_filter (canonical : table.Canonical) {first second : Entry V → Bool}
    (narrower : ∀ entry, second entry = true → first entry = true) (entry : Entry V) :
    ((table.filter first).add entry).filter second = (table.add entry).filter second := by
  have once : (table.filter first).Canonical := canonical.retain _ _
  refine ((once.add entry).retain _ _).ext ((canonical.add entry).retain _ _) fun path => ?_
  change (((table.filter first).add entry).filter second).entriesAt path
    = ((table.add entry).filter second).entriesAt path
  have left : ((table.entriesAt path).filter first).filter second = (table.entriesAt path).filter second := by
    rw [List.filter_filter]
    exact List.filter_congr fun entry _ => by simpa using narrower entry
  rw [entriesAt_filter (once.add entry).ordered, entriesAt_filter (canonical.add entry).ordered,
    entriesAt_add once.ordered, entriesAt_add canonical.ordered, entriesAt_filter canonical.ordered]
  split
  · rw [List.filter_append, List.filter_append, left]
  · exact left

theorem eq_empty (canonical : table.Canonical) (nothing : table.toList = []) : table = .empty := by
  refine canonical.ext .empty fun path => ?_
  obtain ⟨front, back, stands, -⟩ := exists_toList_setEntries canonical.ordered path
  rw [nothing, List.append_assoc, eq_comm, List.append_eq_nil_iff, List.append_eq_nil_iff] at stands
  rw [stands.2.1, entriesAt_empty]

-- What a clear answers is the number of entries there were, and none is left.
theorem clear_eq (canonical : table.Canonical) : table.clear = (table.toList.length, .empty) := by
  rw [Table.clear, canonical.sized]

end Canonical

/-! The changes of a table one after the other. -/

variable [DecidableEq V]

def apply (table : Table V) : Change V → Table V
  | .addName name value => table.addName name value
  | .addInterest interest value => table.addInterest interest value
  | .removeName name value => (table.removeName name value).2
  | .removeInterest interest value => (table.removeInterest interest value).2
  | .removeMatch target => (table.removeMatch target).2
  | .removeMatches target => (table.removeMatches target).2
  | .retain keep state => (table.retain keep state).2.2
  | .clear => table.clear.2

def made (changes : List (Change V)) : Table V := changes.foldl apply empty

theorem Canonical.apply (canonical : table.Canonical) (change : Change V) : (table.apply change).Canonical := by
  cases change with
  | addName name value => exact canonical.add _
  | addInterest interest value => exact canonical.add _
  | removeName name value => exact canonical.extract (parts_selectFirst _) _
  | removeInterest interest value => exact canonical.extract (parts_selectFirst _) _
  | removeMatch target => exact canonical.removeMatch target
  | removeMatches target => exact canonical.removeMatches target
  | retain keep state => exact canonical.retain keep state
  | clear =>
    rw [Table.apply, canonical.clear_eq]
    exact .empty

theorem canonical_made (changes : List (Change V)) : (made changes).Canonical := by
  have kept : ∀ {table : Table V}, table.Canonical → (changes.foldl Table.apply table).Canonical := by
    induction changes with
    | nil => exact id
    | cons change rest ih => exact fun canonical => ih (canonical.apply change)
  exact kept .empty

/-- Every table that changes make is in the one shape that its entries determine.
Siblings ascend, no tree is bare, every entry is filed under its own name, and
entries and names are counted right. What a removal subtracts from the counts
never exceeds them, in the middle of several removals as well. Tables with the
same entries under every name are equal, and one without entries is a new one. -/
theorem made_tables_are_canonical (changes : List (Change V)) :
    let table := made changes
    (table.forest.Ordered ∧ table.forest.Pruned ∧
      (∀ path, ∀ entry ∈ table.entriesAt path, entry.name.components = path) ∧
      (∀ entry ∈ table.toList, entry ∈ table.entriesAt entry.name.components) ∧
      table.size = table.toList.length ∧ table.nameCount = (table.toList.map Entry.name).toFinset.card) ∧
    (∀ steps path select, Parts select →
      let middle := table.extractAll steps
      (middle.extract path select).1.length ≤ middle.size ∧ (middle.entriesAt path ≠ [] → 0 < middle.nameCount)) ∧
    (∀ (σ : Type) (keep : Entry V → σ → Bool × σ) (state : σ),
      (table.sweep keep state).removed ≤ table.size ∧ (table.sweep keep state).emptied ≤ table.nameCount) ∧
    (∀ others, (∀ path, table.entriesAt path = (made others).entriesAt path) → table = made others) ∧
    (table.toList = [] → table = .empty) := by
  intro table
  have canonical : table.Canonical := canonical_made changes
  refine ⟨⟨canonical.ordered, canonical.pruned, fun _ _ => canonical.filed, ?_, canonical.sized, ?_⟩, ?_, ?_, ?_, ?_⟩
  · exact fun _ => (mem_toList_iff canonical.toWellFormed).mp
  · rw [canonical.named, canonical.card_names]
  · intro steps path select parts
    have between := canonical.extractAll steps
    exact ⟨between.length_extract_le parts path, between.nameCount_pos⟩
  · intro σ keep state
    have removed := table.removed_sweep keep state
    have emptied := table.emptied_sweep keep state
    rw [canonical.sized, canonical.named]
    exact ⟨by omega, by omega⟩
  · exact fun others => canonical.ext (canonical_made others)
  · exact canonical.eq_empty

namespace Sample

def below : Name := .ofBytes [[97], [98]]

def beginning : Name := .ofBytes [[97]]

def beside : Name := .ofBytes [[99]]

def direct : List (Change Nat) := [.addInterest (.ofName below) 1, .addName beside 2]

/-- The same entries come the other way round, while /a comes and goes. -/
def roundabout : List (Change Nat) :=
  [.addName beginning 3, .addName beside 2, .addInterest (.ofName below) 1, .removeName beginning 3]

def passing : List (Change Nat) := direct ++ [.removeMatch (.ofName below), .removeName beside 2]

-- The three names aside, neither table holds anything.
theorem entriesAt_direct (path : List Component) : (made direct).entriesAt path = (made roundabout).entriesAt path := by
  by_cases named : path = below.components ∨ path = beside.components ∨ path = beginning.components
  · rcases named with rfl | rfl | rfl <;> decide
  · obtain ⟨notBelow, notBeside, notBeginning⟩ :
        path ≠ below.components ∧ path ≠ beside.components ∧ path ≠ beginning.components := by simpa using named
    have none : (empty : Table Nat).WellFormed := wellFormed_empty
    have one (first : Entry Nat) := none.add first
    have two (first second : Entry Nat) := (one first).add second
    have three (first second third : Entry Nat) := (two first second).add third
    simp [made, direct, roundabout, apply, addName, addInterest, removeName, Entry.name, Interest.ofName, entriesAt_add,
      entriesAt_extract, none.ordered, (one _).ordered, (two _ _).ordered, (three _ _ _).ordered, notBelow, notBeside,
      notBeginning]

end Sample

open Table.Sample in
/-- Two entries that come in either order, with a name between them or not, make
one table. It notes a name as long as there is one, and is a new one afterwards. -/
theorem detour_makes_equal_table :
    (∀ path, (made direct).entriesAt path = (made roundabout).entriesAt path) ∧ made direct = made roundabout ∧
      Parts (selectFirst fun entry : Entry Nat => entry.value == 2) ∧
      (made direct).entriesAt beside.components ≠ [] ∧ 0 < (made direct).nameCount ∧
      (made passing).toList = [] ∧ made passing = .empty := by
  obtain ⟨-, counts, -, same, -⟩ := made_tables_are_canonical direct
  obtain ⟨-, -, -, -, cleared⟩ := made_tables_are_canonical passing
  have stored : (made direct).entriesAt beside.components ≠ [] := by decide
  have nothing : (made passing).toList = [] := by decide
  have parts := parts_selectFirst fun entry : Entry Nat => entry.value == 2
  exact ⟨entriesAt_direct, same roundabout entriesAt_direct, parts, stored, (counts [] beside.components _ parts).2 stored,
    nothing, cleared nothing⟩

end Table

end NamedContent
