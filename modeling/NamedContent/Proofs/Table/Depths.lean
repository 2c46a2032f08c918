import NamedContent.Proofs.Table.Changes

/-! The names on a target's path that have a matching entry.

A search along the path meets the entries of its beginnings, as far as there are
any. What it picks, it picks from the longest of these names, or from all of
them, shorter ones first. -/

set_option autoImplicit false

namespace NamedContent.Table

variable {V : Type} {table : Table V}

theorem getElem?_along_forest (forest : Forest V) (label : Component) (path : List Component) (depth : Nat) :
    ((forest.along (label :: path))[depth]?).getD []
      = if depth ≤ path.length then forest.entriesAt label (path.take depth) else [] := by
  induction forest generalizing label path depth with
  | nil => simp [Forest.along, Forest.entriesAt]
  | tree other held below beside below_ih beside_ih =>
    by_cases same : label = other
    · subst same
      cases depth with
      | zero => simp [Forest.along, Forest.entriesAt_here]
      | succ depth =>
        cases path with
        | nil => cases below <;> simp [Forest.along]
        | cons next path => simpa [Forest.along, Forest.entriesAt_here] using below_ih next path depth
    · simpa [Forest.along, Forest.entriesAt_beside same, same] using beside_ih label path depth

theorem getElem?_along (table : Table V) (path : List Component) (depth : Nat) :
    ((table.along path)[depth]?).getD [] = if depth ≤ path.length then table.entriesAt (path.take depth) else [] := by
  cases depth with
  | zero => simp [along, entriesAt]
  | succ depth =>
    cases path with
    | nil =>
      have nowhere : table.forest.along [] = [] := by cases table.forest <;> rfl
      simp [along, nowhere]
    | cons label path => simpa [along, entriesAt] using getElem?_along_forest table.forest label path depth

theorem mem_matchDepths_iff {target : Target} {depth : Nat} :
    depth ∈ table.matchDepths target ↔
      depth ≤ target.path.length ∧ ∃ entry ∈ table.entriesAt (target.path.take depth), entry.matchesTarget target = true := by
  have stands := table.getElem?_along target.path depth
  have found : depth ∈ table.matchDepths target ↔
      ∃ held, (table.along target.path)[depth]? = some held ∧ ∃ entry ∈ held, entry.matchesTarget target = true := by
    simp [matchDepths, List.mem_zipIdx_iff_getElem?]
  rw [found]
  constructor
  · rintro ⟨held, there, entry, member, matched⟩
    rw [there, Option.getD_some] at stands
    split at stands
    · rename_i within
      exact ⟨within, entry, stands ▸ member, matched⟩
    · exact absurd (stands ▸ member) List.not_mem_nil
  · rintro ⟨within, entry, member, matched⟩
    rw [if_pos within] at stands
    cases there : (table.along target.path)[depth]? with
    | none =>
      rw [there, Option.getD_none] at stands
      exact absurd (stands ▸ member) List.not_mem_nil
    | some held =>
      rw [there, Option.getD_some] at stands
      exact ⟨held, rfl, entry, stands ▸ member, matched⟩

theorem matchDepths_ascending (table : Table V) (target : Target) : (table.matchDepths target).Pairwise (· < ·) := by
  have numbered : ((table.along target.path).zipIdx.map Prod.snd).Pairwise (· < ·) := by
    rw [List.zipIdx_map_snd]
    exact List.pairwise_lt_range'
  exact numbered.sublist (List.filter_sublist.map _)

theorem le_of_getLast?_matchDepths {target : Target} {deepest depth : Nat}
    (last : (table.matchDepths target).getLast? = some deepest) (member : depth ∈ table.matchDepths target) :
    depth ≤ deepest := by
  obtain ⟨shallower, divided⟩ := List.getLast?_eq_some_iff.mp last
  have ascending := table.matchDepths_ascending target
  rw [divided] at member ascending
  rcases List.mem_append.mp member with before | same
  · exact Nat.le_of_lt ((List.pairwise_append.mp ascending).2.2 depth before deepest (List.mem_singleton.mpr rfl))
  · exact Nat.le_of_eq (List.mem_singleton.mp same)

-- The last list that has a passing value also has the last of the first ones.
theorem getLast?_filterMap_find? {α : Type} (test : α → Bool) (lists : List (List α)) (start : Nat) :
    (lists.filterMap (·.find? test)).getLast?
      = ((lists.zipIdx start).filter fun place => place.1.any test).getLast?.bind fun place => place.1.find? test := by
  induction lists using List.reverseRecOn with
  | nil => rfl
  | append_singleton lists held ih =>
    rw [List.filterMap_append, List.zipIdx_append, List.filter_append]
    cases first : held.find? test with
    | none =>
      have nothing : held.any test = false := by simpa using first
      simpa [first, nothing] using ih
    | some value =>
      have something : held.any test = true :=
        List.any_eq_true.mpr ⟨value, List.mem_of_find?_eq_some first, List.find?_some first⟩
      simp [first, something]

/-- The entry lists along a target's path that have a matching entry, with their depths. -/
def matchPlaces (table : Table V) (target : Target) : List (List (Entry V) × Nat) :=
  (table.along target.path).zipIdx.filter fun place => place.1.any (·.matchesTarget target)

theorem map_matchPlaces (table : Table V) (target : Target) :
    (table.matchPlaces target).map Prod.snd = table.matchDepths target := rfl

-- Where something matches stand the entries of the path's beginning.
theorem entries_of_mem_matchPlaces {target : Target} {place : List (Entry V) × Nat}
    (member : place ∈ table.matchPlaces target) : place.1 = table.entriesAt (target.path.take place.2) := by
  obtain ⟨there, something⟩ := List.mem_filter.mp member
  have stands := table.getElem?_along target.path place.2
  rw [List.mem_zipIdx_iff_getElem?.mp there, Option.getD_some] at stands
  split at stands
  · exact stands
  · simp [show place.1 = [] from stands] at something

theorem match?_eq (table : Table V) (target : Target) :
    table.match? target = (table.matchDepths target).getLast?.bind fun depth =>
      (table.entriesAt (target.path.take depth)).find? (·.matchesTarget target) := by
  rw [match?, ← List.getLast?_filterMap, getLast?_filterMap_find? _ _ 0, ← map_matchPlaces, List.getLast?_map]
  change (table.matchPlaces target).getLast?.bind _ = _
  cases last : (table.matchPlaces target).getLast? with
  | none => rfl
  | some place => simp [entries_of_mem_matchPlaces (List.mem_of_getLast? last)]

end NamedContent.Table
