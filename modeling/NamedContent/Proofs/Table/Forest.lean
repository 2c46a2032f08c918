import Mathlib.Data.List.Infix
import NamedContent.Proofs.Name.Prefix
import NamedContent.Table.Forest

/-! A forest through the entries it holds at every path.

While siblings ascend, each operation has one equation for the entries at a
path, and a search along a path meets the entries of every beginning of it. -/

set_option autoImplicit false

namespace NamedContent.Forest

variable {V : Type}

def Below (label : Component) : Forest V → Prop
  | .nil => True
  | .tree other _ _ beside => label < other ∧ beside.Below label

def Ordered : Forest V → Prop
  | .nil => True
  | .tree label _ below beside => beside.Below label ∧ below.Ordered ∧ beside.Ordered

theorem below_nil (label : Component) : (nil : Forest V).Below label := trivial

theorem ordered_nil : (nil : Forest V).Ordered := trivial

theorem Below.trans {label other : Component} {forest : Forest V} (less : label < other)
    (apart : forest.Below other) : forest.Below label := by
  induction forest with
  | nil => trivial
  | tree next entries below beside below_ih beside_ih => exact ⟨Std.lt_trans less apart.1, beside_ih apart.2⟩

theorem entriesAt_here (label : Component) (entries : List (Entry V)) (below beside : Forest V)
    (path : List Component) :
    (Forest.tree label entries below beside).entriesAt label path
      = match path with
        | [] => entries
        | next :: path => below.entriesAt next path := by
  cases path <;> simp [entriesAt]

theorem entriesAt_beside {label other : Component} (distinct : other ≠ label) (entries : List (Entry V))
    (below beside : Forest V) (path : List Component) :
    (Forest.tree label entries below beside).entriesAt other path = beside.entriesAt other path := by
  cases path <;> simp [entriesAt, distinct]

theorem entriesAt_of_below {label : Component} {forest : Forest V} (apart : forest.Below label)
    (path : List Component) : forest.entriesAt label path = [] := by
  induction forest with
  | nil => rfl
  | tree other entries below beside below_ih beside_ih =>
    have distinct : label ≠ other := fun same => Std.lt_irrefl (same ▸ apart.1)
    rw [entriesAt_beside distinct, beside_ih apart.2]

theorem entriesAt_plant {label : Component} {beside : Forest V} (apart : beside.Below label)
    (entries : List (Entry V)) (below : Forest V) (other : Component) (path : List Component) :
    (plant label entries below beside).entriesAt other path
      = (Forest.tree label entries below beside).entriesAt other path := by
  unfold plant
  split
  · by_cases same : other = label
    · subst same
      rw [entriesAt_of_below apart, entriesAt_here]
      cases path <;> rfl
    · rw [entriesAt_beside same]
  · rfl

theorem Below.plant {label other : Component} {beside : Forest V} (less : other < label)
    (apart : beside.Below other) (entries : List (Entry V)) (below : Forest V) :
    (plant label entries below beside).Below other := by
  unfold Forest.plant
  split
  · exact apart
  · exact ⟨less, apart⟩

theorem Ordered.plant {label : Component} {below beside : Forest V} (apart : beside.Below label)
    (below_ordered : below.Ordered) (beside_ordered : beside.Ordered) (entries : List (Entry V)) :
    (plant label entries below beside).Ordered := by
  unfold Forest.plant
  split
  · exact beside_ordered
  · exact ⟨apart, below_ordered, beside_ordered⟩

theorem Below.sprout {label other : Component} {beside : Forest V} (less : other < label)
    (apart : beside.Below other) (entries : List (Entry V)) (path : List Component) :
    (sprout entries label path beside).Below other := by
  cases path with
  | nil => exact Below.plant less apart _ _
  | cons next path => exact Below.plant less apart _ _

theorem Ordered.sprout {label : Component} {beside : Forest V} (apart : beside.Below label)
    (ordered : beside.Ordered) (entries : List (Entry V)) (path : List Component) :
    (sprout entries label path beside).Ordered := by
  induction path generalizing label beside with
  | nil => exact Ordered.plant apart ordered_nil ordered _
  | cons next path ih => exact Ordered.plant apart (ih (below_nil next) ordered_nil) ordered _

theorem entriesAt_sprout {label : Component} {beside : Forest V} (apart : beside.Below label)
    (entries : List (Entry V)) (path : List Component) (other : Component) (rest : List Component) :
    (sprout entries label path beside).entriesAt other rest
      = if other :: rest = label :: path then entries else beside.entriesAt other rest := by
  induction path generalizing label beside other rest with
  | nil =>
    rw [sprout, entriesAt_plant apart]
    by_cases same : other = label
    · subst same
      cases rest with
      | nil => simp [entriesAt_here]
      | cons next rest => simp [entriesAt, entriesAt_of_below apart]
    · simp [entriesAt_beside same, same]
  | cons next path ih =>
    rw [sprout, entriesAt_plant apart]
    by_cases same : other = label
    · subst same
      cases rest with
      | nil => simp [entriesAt_here, entriesAt_of_below apart]
      | cons after rest => simp [ih (below_nil next), entriesAt, entriesAt_of_below apart]
    · simp [entriesAt_beside same, same]

theorem Below.setEntries {label other : Component} {forest : Forest V} (less : other < label)
    (apart : forest.Below other) (entries : List (Entry V)) (path : List Component) :
    (forest.setEntries entries label path).Below other := by
  induction forest with
  | nil => exact Below.sprout less apart entries path
  | tree next held below beside below_ih beside_ih =>
    unfold Forest.setEntries
    split
    · exact Below.sprout less apart entries path
    · split
      · cases path <;> exact Below.plant apart.1 apart.2 _ _
      · exact ⟨apart.1, beside_ih apart.2⟩

theorem Ordered.setEntries {forest : Forest V} (ordered : forest.Ordered) (entries : List (Entry V))
    (label : Component) (path : List Component) : (forest.setEntries entries label path).Ordered := by
  induction forest generalizing label path with
  | nil => exact Ordered.sprout (below_nil label) ordered_nil entries path
  | tree other held below beside below_ih beside_ih =>
    obtain ⟨apart, below_ordered, beside_ordered⟩ := ordered
    unfold Forest.setEntries
    split
    · rename_i less
      have beyond : (tree other held below beside).Below label := ⟨less, apart.trans less⟩
      exact Ordered.sprout beyond ⟨apart, below_ordered, beside_ordered⟩ entries path
    · split
      · cases path with
        | nil => exact Ordered.plant apart below_ordered beside_ordered _
        | cons next path => exact Ordered.plant apart (below_ih below_ordered next path) beside_ordered _
      · rename_i notLess distinct
        have greater : other < label := Std.lt_of_le_of_ne (Std.not_lt.mp notLess) (Ne.symm distinct)
        exact ⟨apart.setEntries greater entries path, below_ordered, beside_ih beside_ordered label path⟩

theorem entriesAt_setEntries {forest : Forest V} (ordered : forest.Ordered) (entries : List (Entry V))
    (label : Component) (path : List Component) (other : Component) (rest : List Component) :
    (forest.setEntries entries label path).entriesAt other rest
      = if other :: rest = label :: path then entries else forest.entriesAt other rest := by
  induction forest generalizing label path other rest with
  | nil => exact entriesAt_sprout (below_nil label) entries path other rest
  | tree held kept below beside below_ih beside_ih =>
    obtain ⟨apart, below_ordered, beside_ordered⟩ := ordered
    unfold setEntries
    split
    · rename_i less
      have beyond : (tree held kept below beside).Below label := ⟨less, apart.trans less⟩
      exact entriesAt_sprout beyond entries path other rest
    · split
      · rename_i same
        subst same
        cases path with
        | nil =>
          rw [entriesAt_plant apart]
          by_cases here : other = label
          · subst here
            cases rest <;> simp [entriesAt_here]
          · simp [entriesAt_beside here, here]
        | cons next path =>
          simp only [entriesAt_plant apart]
          by_cases here : other = label
          · subst here
            cases rest with
            | nil => simp [entriesAt_here]
            | cons after rest => simp [entriesAt_here, below_ih below_ordered]
          · simp [entriesAt_beside here, here]
      · rename_i distinct
        by_cases here : other = held
        · subst here
          simp [entriesAt_here, Ne.symm distinct]
        · simp [entriesAt_beside here, beside_ih beside_ordered]

theorem mem_toList_iff {forest : Forest V} (ordered : forest.Ordered) {entry : Entry V} :
    entry ∈ forest.toList ↔ ∃ label path, entry ∈ forest.entriesAt label path := by
  induction forest with
  | nil => simp [toList, entriesAt]
  | tree held entries below beside below_ih beside_ih =>
    obtain ⟨apart, below_ordered, beside_ordered⟩ := ordered
    simp only [toList, List.mem_append, below_ih below_ordered, beside_ih beside_ordered]
    constructor
    · rintro ((⟨next, path, found⟩ | found) | ⟨label, path, found⟩)
      · exact ⟨held, next :: path, by simpa [entriesAt_here] using found⟩
      · exact ⟨held, [], by simpa [entriesAt_here] using found⟩
      · -- The trees beside hold nothing under this label.
        have distinct : label ≠ held := by
          rintro rfl
          rw [entriesAt_of_below apart] at found
          exact List.not_mem_nil found
        exact ⟨label, path, by simpa [entriesAt_beside distinct] using found⟩
    · intro ⟨label, path, found⟩
      by_cases same : label = held
      · subst same
        cases path with
        | nil => exact Or.inl (Or.inr (by simpa [entriesAt_here] using found))
        | cons next path => exact Or.inl (Or.inl ⟨next, path, by simpa [entriesAt_here] using found⟩)
      · exact Or.inr ⟨label, path, by simpa [entriesAt_beside same] using found⟩

-- What a search along a path collects: the entries at its beginnings, shorter ones first.
theorem flatMap_along {α : Type} {collect : List (Entry V) → List α} (none : collect [] = [])
    (forest : Forest V) (label : Component) (path : List Component) :
    (forest.along (label :: path)).flatMap collect
      = path.inits.flatMap fun beginning => collect (forest.entriesAt label beginning) := by
  induction forest generalizing label path with
  | nil => simp [along, entriesAt, none]
  | tree other entries below beside below_ih beside_ih =>
    by_cases same : label = other
    · subst same
      cases path with
      | nil => cases below <;> simp [along, entriesAt_here]
      | cons next path => simp [along, entriesAt_here, below_ih, List.flatMap_map]
    · simp [along, entriesAt_beside same, same, beside_ih]

end NamedContent.Forest
