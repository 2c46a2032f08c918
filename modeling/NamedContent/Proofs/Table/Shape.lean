import Mathlib.Data.Finset.Card
import NamedContent.Proofs.Table.View

/-! The shape of a forest and the entries that determine it.

While siblings ascend and no tree is bare, two forests with the same entries at
every path are one forest. If moreover every entry is filed under its own name,
the trees with entries are as many as the names. -/

set_option autoImplicit false

namespace NamedContent.Forest

variable {V σ : Type} {forest below beside : Forest V} {label : Component}

/-- No tree is bare: each has an entry or a tree below it. -/
def Pruned : Forest V → Prop
  | .nil => True
  | .tree _ entries below beside => (entries ≠ [] ∨ below ≠ .nil) ∧ below.Pruned ∧ beside.Pruned

theorem pruned_nil : (nil : Forest V).Pruned := trivial

theorem Pruned.plant (below_pruned : below.Pruned) (beside_pruned : beside.Pruned) (label : Component)
    (entries : List (Entry V)) : (plant label entries below beside).Pruned := by
  unfold Forest.plant
  split
  · exact beside_pruned
  · rename_i notBare
    refine ⟨?_, below_pruned, beside_pruned⟩
    by_contra bare
    obtain ⟨empty, nothing⟩ := not_or.mp bare
    exact notBare (not_not.mp empty) (not_not.mp nothing)

theorem Pruned.sprout (pruned : beside.Pruned) (entries : List (Entry V)) (label : Component)
    (path : List Component) : (sprout entries label path beside).Pruned := by
  induction path generalizing label beside with
  | nil => exact pruned_nil.plant pruned _ _
  | cons next path ih => exact (ih pruned_nil next).plant pruned _ _

theorem Pruned.setEntries (pruned : forest.Pruned) (entries : List (Entry V)) (label : Component)
    (path : List Component) : (forest.setEntries entries label path).Pruned := by
  induction forest generalizing label path with
  | nil => exact pruned_nil.sprout entries label path
  | tree other held below beside below_ih beside_ih =>
    obtain ⟨fills, below_pruned, beside_pruned⟩ := id pruned
    unfold Forest.setEntries
    split
    · exact pruned.sprout entries label path
    · split
      · cases path with
        | nil => exact below_pruned.plant beside_pruned _ _
        | cons next path => exact (below_ih below_pruned next path).plant beside_pruned _ _
      · exact ⟨fills, below_pruned, beside_ih beside_pruned label path⟩

theorem Pruned.retain (pruned : forest.Pruned) (keep : Entry V → σ → Bool × σ) (sweep : Sweep σ) :
    (forest.retain keep sweep).1.Pruned := by
  induction forest generalizing sweep with
  | nil => trivial
  | tree label entries below beside below_ih beside_ih =>
    exact (below_ih pruned.2.1 _).plant (beside_ih pruned.2.2 _) _ _

-- The first tree of a forest leads to an entry.
theorem Pruned.exists_entriesAt_ne_nil {entries : List (Entry V)}
    (pruned : (tree label entries below beside).Pruned) :
    ∃ path, (tree label entries below beside).entriesAt label path ≠ [] := by
  induction below generalizing label entries beside with
  | nil =>
    refine ⟨[], ?_⟩
    rw [entriesAt_here]
    exact pruned.1.resolve_right fun some => some rfl
  | tree next held deeper others deeper_ih =>
    obtain ⟨path, found⟩ := deeper_ih pruned.2.1
    refine ⟨next :: path, ?_⟩
    rw [entriesAt_here]
    exact found

-- Forests are compared tree by tree. A label that only one of them has leads to
-- an entry that the other one lacks.
theorem ext_entriesAt {first second : Forest V} (first_ordered : first.Ordered) (second_ordered : second.Ordered)
    (first_pruned : first.Pruned) (second_pruned : second.Pruned)
    (same : ∀ label path, first.entriesAt label path = second.entriesAt label path) : first = second := by
  have lacks {forest : Forest V} {label : Component} {entries : List (Entry V)} {below beside : Forest V}
      (pruned : (tree label entries below beside).Pruned) (apart : forest.Below label)
      (equal : ∀ path, (tree label entries below beside).entriesAt label path = forest.entriesAt label path) :
      False := by
    obtain ⟨path, found⟩ := pruned.exists_entriesAt_ne_nil
    exact found ((equal path).trans (entriesAt_of_below apart path))
  induction first generalizing second with
  | nil =>
    cases second with
    | nil => rfl
    | tree label entries below beside =>
      exact (lacks second_pruned (below_nil label) fun path => (same label path).symm).elim
  | tree label entries below beside below_ih beside_ih =>
    cases second with
    | nil => exact (lacks first_pruned (below_nil label) (same label)).elim
    | tree other held deeper others =>
      obtain ⟨apart, below_ordered, beside_ordered⟩ := id first_ordered
      obtain ⟨other_apart, deeper_ordered, others_ordered⟩ := id second_ordered
      rcases Std.lt_trichotomy label other with less | rfl | greater
      · have beyond : (tree other held deeper others).Below label := ⟨less, other_apart.trans less⟩
        exact (lacks first_pruned beyond (same label)).elim
      · have entries_same : entries = held := by simpa [entriesAt_here] using same label []
        have below_same : below = deeper := by
          refine below_ih below_ordered deeper_ordered first_pruned.2.1 second_pruned.2.1 fun next path => ?_
          simpa [entriesAt_here] using same label (next :: path)
        have beside_same : beside = others := by
          refine beside_ih beside_ordered others_ordered first_pruned.2.2 second_pruned.2.2 fun next path => ?_
          by_cases distinct : next = label
          · rw [distinct, entriesAt_of_below apart, entriesAt_of_below other_apart]
          · have reached := same next path
            rwa [entriesAt_beside distinct, entriesAt_beside distinct] at reached
        rw [entries_same, below_same, beside_same]
      · have beyond : (tree label entries below beside).Below other := ⟨greater, apart.trans greater⟩
        exact (lacks second_pruned beyond fun path => (same other path).symm).elim

/-! The names that have entries. -/

/-- What the entries of one name add to the number of names. -/
def occupied (entries : List (Entry V)) : Nat := if entries.isEmpty then 0 else 1

def nameCount : Forest V → Nat
  | .nil => 0
  | .tree _ entries below beside => below.nameCount + occupied entries + beside.nameCount

@[simp] theorem occupied_nil : occupied ([] : List (Entry V)) = 0 := rfl

theorem nameCount_plant (label : Component) (entries : List (Entry V)) (below beside : Forest V) :
    (plant label entries below beside).nameCount = below.nameCount + occupied entries + beside.nameCount := by
  unfold plant
  split
  · simp [nameCount]
  · rfl

theorem nameCount_sprout (entries : List (Entry V)) (label : Component) (path : List Component)
    (beside : Forest V) : (sprout entries label path beside).nameCount = occupied entries + beside.nameCount := by
  induction path generalizing label beside with
  | nil => simp [sprout, nameCount_plant, nameCount]
  | cons next path ih => simp [sprout, nameCount_plant, ih, nameCount]

theorem nameCount_setEntries (ordered : forest.Ordered) (entries : List (Entry V)) (label : Component)
    (path : List Component) :
    (forest.setEntries entries label path).nameCount + occupied (forest.entriesAt label path)
      = forest.nameCount + occupied entries := by
  induction forest generalizing label path with
  | nil => simp [setEntries, nameCount_sprout, entriesAt, nameCount]
  | tree other held below beside below_ih beside_ih =>
    obtain ⟨apart, below_ordered, beside_ordered⟩ := ordered
    unfold setEntries
    split
    · rename_i less
      have beyond : (tree other held below beside).Below label := ⟨less, apart.trans less⟩
      rw [nameCount_sprout, entriesAt_of_below beyond, occupied_nil, Nat.add_zero, Nat.add_comm]
    · split
      · rename_i same
        subst same
        cases path with
        | nil =>
          simp only [nameCount_plant, entriesAt_here, nameCount]
          omega
        | cons next path =>
          have deeper := below_ih below_ordered next path
          simp only [nameCount_plant, entriesAt_here, nameCount]
          omega
      · rename_i distinct
        have others := beside_ih beside_ordered label path
        rw [entriesAt_beside distinct, nameCount, nameCount]
        omega

def Filed (beginning : List Component) (forest : Forest V) : Prop :=
  ∀ label path, ∀ entry ∈ forest.entriesAt label path, entry.name.components = beginning ++ label :: path

section Filed
variable {beginning : List Component} {entries : List (Entry V)} {entry : Entry V}

theorem Filed.here (filed : (tree label entries below beside).Filed beginning) (member : entry ∈ entries) :
    entry.name.components = beginning ++ [label] :=
  filed label [] entry (by rwa [entriesAt_here])

theorem Filed.deeper (filed : (tree label entries below beside).Filed beginning) :
    below.Filed (beginning ++ [label]) := by
  intro next path entry found
  rw [List.append_assoc]
  exact filed label (next :: path) entry (by rwa [entriesAt_here])

theorem lt_of_mem_entriesAt {other : Component} {path : List Component} (apart : forest.Below label)
    (found : entry ∈ forest.entriesAt other path) : label < other := by
  induction forest with
  | nil => exact absurd found List.not_mem_nil
  | tree next held below beside below_ih beside_ih =>
    by_cases same : other = next
    · exact same ▸ apart.1
    · rw [entriesAt_beside same] at found
      exact beside_ih apart.2 found

theorem Filed.aside (filed : (tree label entries below beside).Filed beginning) (apart : beside.Below label) :
    beside.Filed beginning := by
  intro other path entry found
  have distinct : other ≠ label := fun same => Std.lt_irrefl (same ▸ lt_of_mem_entriesAt apart found)
  exact filed other path entry (by rwa [entriesAt_beside distinct])

theorem Filed.of_mem_toList (filed : forest.Filed beginning) (ordered : forest.Ordered)
    (member : entry ∈ forest.toList) :
    ∃ label path, entry ∈ forest.entriesAt label path ∧ entry.name.components = beginning ++ label :: path := by
  obtain ⟨label, path, found⟩ := (mem_toList_iff ordered).mp member
  exact ⟨label, path, found, filed label path entry found⟩

end Filed

theorem card_names_here {entries : List (Entry V)} {name : Name} (named : ∀ entry ∈ entries, entry.name = name) :
    (entries.map Entry.name).toFinset.card = occupied entries := by
  cases entries with
  | nil => rfl
  | cons first rest =>
    have single : ((first :: rest).map Entry.name).toFinset = {name} := by
      ext other
      simp only [List.mem_toFinset, List.mem_map, Finset.mem_singleton]
      constructor
      · rintro ⟨entry, member, rfl⟩
        exact named entry member
      · rintro rfl
        exact ⟨first, List.mem_cons_self, named first List.mem_cons_self⟩
    rw [single, Finset.card_singleton]
    rfl

-- Names below a tree are longer than its own, and names beside it part from it
-- at its label.
theorem card_names {beginning : List Component} (ordered : forest.Ordered) (filed : forest.Filed beginning) :
    (forest.toList.map Entry.name).toFinset.card = forest.nameCount := by
  induction forest generalizing beginning with
  | nil => rfl
  | tree label entries below beside below_ih beside_ih =>
    obtain ⟨apart, below_ordered, beside_ordered⟩ := ordered
    have here : ∀ entry ∈ entries, entry.name = ⟨beginning ++ [label]⟩ :=
      fun entry member => congrArg Name.mk (filed.here member)
    have deeper : Disjoint (below.toList.map Entry.name).toFinset (entries.map Entry.name).toFinset := by
      simp only [Finset.disjoint_left, List.mem_toFinset, List.mem_map]
      rintro name ⟨entry, member, rfl⟩ ⟨other, held, same⟩
      obtain ⟨next, path, -, named⟩ := filed.deeper.of_mem_toList below_ordered member
      have lengths := congrArg List.length ((congrArg Name.components same).symm.trans (filed.here held))
      rw [named] at lengths
      simp at lengths
    have aside : Disjoint ((below.toList.map Entry.name).toFinset ∪ (entries.map Entry.name).toFinset)
        (beside.toList.map Entry.name).toFinset := by
      simp only [Finset.disjoint_left, Finset.mem_union, List.mem_toFinset, List.mem_map]
      rintro name within ⟨other, held, rfl⟩
      obtain ⟨next, path, found, named⟩ := (filed.aside apart).of_mem_toList beside_ordered held
      have begins : ∃ rest, other.name.components = beginning ++ label :: rest := by
        rcases within with ⟨entry, member, same⟩ | ⟨entry, member, same⟩
        · obtain ⟨after, rest, -, spelled⟩ := filed.deeper.of_mem_toList below_ordered member
          exact ⟨after :: rest, by rw [← same, spelled, List.append_assoc]; rfl⟩
        · exact ⟨[], by rw [← same, filed.here member]⟩
      obtain ⟨rest, spelled⟩ := begins
      have labels := List.append_cancel_left (named.symm.trans spelled)
      exact Std.lt_irrefl ((List.cons.inj labels).1 ▸ lt_of_mem_entriesAt apart found)
    rw [toList, List.map_append, List.map_append, List.toFinset_append, List.toFinset_append,
      Finset.card_union_of_disjoint aside, Finset.card_union_of_disjoint deeper, below_ih below_ordered filed.deeper,
      card_names_here here, beside_ih beside_ordered (filed.aside apart), nameCount]

end NamedContent.Forest
