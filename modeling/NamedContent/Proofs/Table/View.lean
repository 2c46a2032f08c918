import NamedContent.Proofs.Interest.Matching
import NamedContent.Proofs.Table.Forest
import NamedContent.Table.Basic

/-! A table through the entries of every name.

Each operation has one equation for the entries at a path. As every entry is
filed under its own name, the search along a target's path misses no match. -/

set_option autoImplicit false

namespace NamedContent

variable {V σ : Type}

theorem Entry.prefix_path_of_matchesTarget {target : Target} {entry : Entry V}
    (matched : entry.matchesTarget target = true) : entry.name.components <+: target.path := by
  cases entry with
  | bare name value => simp [matchesTarget, interest?] at matched
  | interest asked value => exact Interest.prefix_path_of_matchesTarget matched

namespace Forest

theorem filterState_pure {α : Type} (test : α → Bool) (values : List α) (state : σ) :
    filterState (fun value state => (test value, state)) values state = (values.filter test, state) := by
  induction values generalizing state with
  | nil => rfl
  | cons first rest ih => simp [filterState, ih, List.filter_cons]

theorem Below.retain {label : Component} {forest : Forest V} (apart : forest.Below label)
    (keep : Entry V → σ → Bool × σ) (sweep : Sweep σ) : (forest.retain keep sweep).1.Below label := by
  induction forest generalizing sweep with
  | nil => trivial
  | tree other entries below beside below_ih beside_ih => exact Below.plant apart.1 (beside_ih apart.2 _) _ _

theorem Ordered.retain {forest : Forest V} (ordered : forest.Ordered) (keep : Entry V → σ → Bool × σ)
    (sweep : Sweep σ) : (forest.retain keep sweep).1.Ordered := by
  induction forest generalizing sweep with
  | nil => trivial
  | tree label entries below beside below_ih beside_ih =>
    exact Ordered.plant (ordered.1.retain keep _) (below_ih ordered.2.1 _) (beside_ih ordered.2.2 _) _

theorem entriesAt_retain {forest : Forest V} (ordered : forest.Ordered) (test : Entry V → Bool)
    (sweep : Sweep σ) (label : Component) (path : List Component) :
    (forest.retain (fun entry state => (test entry, state)) sweep).1.entriesAt label path
      = (forest.entriesAt label path).filter test := by
  induction forest generalizing sweep label path with
  | nil => rfl
  | tree held entries below beside below_ih beside_ih =>
    obtain ⟨apart, below_ordered, beside_ordered⟩ := ordered
    rw [Forest.retain, entriesAt_plant (apart.retain _ _)]
    by_cases same : label = held
    · subst same
      rw [entriesAt_here, entriesAt_here]
      cases path with
      | nil => simp [Sweep.entries, filterState_pure]
      | cons next path => exact below_ih below_ordered _ next path
    · rw [entriesAt_beside same, entriesAt_beside same, beside_ih beside_ordered]

end Forest

namespace Table

/-- Siblings ascend and every entry is filed under its own name. -/
structure WellFormed (table : Table V) : Prop where
  ordered : table.forest.Ordered
  filed : ∀ {path : List Component} {entry : Entry V}, entry ∈ table.entriesAt path → entry.name.components = path

variable {table : Table V}

theorem entriesAt_setEntries (ordered : table.forest.Ordered) (path : List Component)
    (entries : List (Entry V)) (other : List Component) :
    (table.setEntries path entries).entriesAt other = if other = path then entries else table.entriesAt other := by
  cases path with
  | nil => cases other <;> simp [setEntries, entriesAt]
  | cons label path =>
    cases other with
    | nil => simp [setEntries, entriesAt]
    | cons next rest => exact Forest.entriesAt_setEntries ordered entries label path next rest

theorem ordered_setEntries (ordered : table.forest.Ordered) (path : List Component)
    (entries : List (Entry V)) : (table.setEntries path entries).forest.Ordered := by
  cases path with
  | nil => exact ordered
  | cons label path => exact ordered.setEntries entries label path

theorem entriesAt_add (ordered : table.forest.Ordered) (entry : Entry V) (path : List Component) :
    (table.add entry).entriesAt path
      = if path = entry.name.components then table.entriesAt path ++ [entry] else table.entriesAt path := by
  have view := entriesAt_setEntries ordered entry.name.components
    (table.entriesAt entry.name.components ++ [entry]) path
  refine Eq.trans ?_ (view.trans ?_)
  · cases path <;> rfl
  · split
    · rename_i same
      rw [same]
    · rfl

theorem entriesAt_filter (ordered : table.forest.Ordered) (test : Entry V → Bool) (path : List Component) :
    (table.filter test).entriesAt path = (table.entriesAt path).filter test := by
  cases path with
  | nil => simp [filter, retain, entriesAt, Forest.Sweep.entries, Forest.filterState_pure]
  | cons label path => exact Forest.entriesAt_retain ordered test _ label path

theorem entriesAt_extract (ordered : table.forest.Ordered) (path : List Component)
    (select : List (Entry V) → List (Entry V) × List (Entry V)) (other : List Component) :
    (table.extract path select).2.entriesAt other
      = if other = path then (select (table.entriesAt path)).2 else table.entriesAt other := by
  refine Eq.trans ?_ (entriesAt_setEntries ordered path (select (table.entriesAt path)).2 other)
  cases other <;> rfl

theorem mem_toList_iff (wellFormed : table.WellFormed) {entry : Entry V} :
    entry ∈ table.toList ↔ entry ∈ table.entriesAt entry.name.components := by
  have somewhere : entry ∈ table.toList ↔ ∃ path, entry ∈ table.entriesAt path := by
    rw [toList, List.mem_append, Forest.mem_toList_iff wellFormed.ordered]
    constructor
    · rintro (⟨label, path, found⟩ | found)
      · exact ⟨label :: path, found⟩
      · exact ⟨[], found⟩
    · intro ⟨path, found⟩
      cases path with
      | nil => exact Or.inr found
      | cons label path => exact Or.inl ⟨label, path, found⟩
  rw [somewhere]
  exact ⟨fun ⟨_, found⟩ => (wellFormed.filed found).symm ▸ found, fun found => ⟨_, found⟩⟩

theorem wellFormed_empty : (empty : Table V).WellFormed where
  ordered := trivial
  filed := by
    intro path entry found
    cases path <;> simp [empty, entriesAt, Forest.entriesAt] at found

theorem WellFormed.add (wellFormed : table.WellFormed) (entry : Entry V) : (table.add entry).WellFormed where
  ordered := ordered_setEntries wellFormed.ordered _ _
  filed := by
    intro path other found
    rw [entriesAt_add wellFormed.ordered] at found
    split at found
    · rename_i same
      rcases List.mem_append.mp found with found | found
      · exact wellFormed.filed found
      · rw [List.mem_singleton.mp found, same]
    · exact wellFormed.filed found

theorem WellFormed.filter (wellFormed : table.WellFormed) (test : Entry V → Bool) :
    (table.filter test).WellFormed where
  ordered := wellFormed.ordered.retain _ _
  filed := by
    intro path entry found
    rw [entriesAt_filter wellFormed.ordered] at found
    exact wellFormed.filed (List.mem_filter.mp found).1

theorem WellFormed.extract (wellFormed : table.WellFormed) (path : List Component)
    {select : List (Entry V) → List (Entry V) × List (Entry V)}
    (keeps : ∀ entries, ∀ entry ∈ (select entries).2, entry ∈ entries) :
    (table.extract path select).2.WellFormed where
  ordered := ordered_setEntries wellFormed.ordered _ _
  filed := by
    intro other entry found
    rw [entriesAt_extract wellFormed.ordered] at found
    split at found
    · rename_i same
      exact same ▸ wellFormed.filed (keeps _ _ found)
    · exact wellFormed.filed found

theorem selectFirst_keeps (test : Entry V → Bool) (entries : List (Entry V)) :
    ∀ entry ∈ (selectFirst test entries).2, entry ∈ entries :=
  fun _ found => List.mem_of_mem_eraseP found

theorem mem_addInterest_iff (wellFormed : table.WellFormed) {interest : Interest} {value : V}
    {entry : Entry V} :
    entry ∈ (table.addInterest interest value).toList ↔ entry ∈ table.toList ∨ entry = .interest interest value := by
  rw [addInterest, mem_toList_iff (wellFormed.add _), entriesAt_add wellFormed.ordered,
    mem_toList_iff wellFormed]
  split
  · simp
  · rename_i apart
    refine ⟨Or.inl, ?_⟩
    rintro (found | rfl)
    · exact found
    · exact absurd rfl apart

theorem mem_filter_iff (wellFormed : table.WellFormed) {test : Entry V → Bool} {entry : Entry V} :
    entry ∈ (table.filter test).toList ↔ entry ∈ table.toList ∧ test entry = true := by
  rw [mem_toList_iff (wellFormed.filter test), entriesAt_filter wellFormed.ordered, List.mem_filter,
    mem_toList_iff wellFormed]

section
variable [DecidableEq V]

-- An entry with an equal interest and value is equal as a whole.
theorem sought_eq (interest : Interest) (value : V) :
    (fun entry : Entry V => entry.interest? == some interest && entry.value == value)
      = fun entry => entry == .interest interest value := by
  funext entry
  cases entry <;> simp [Entry.interest?, Entry.value, Bool.beq_eq_decide_eq]

theorem find?_sought_iff (wellFormed : table.WellFormed) {interest : Interest} {value : V} :
    ((table.entriesAt interest.name.components).find? fun entry =>
      entry.interest? == some interest && entry.value == value) = some (.interest interest value) ↔
      .interest interest value ∈ table.toList := by
  rw [sought_eq, mem_toList_iff wellFormed]
  constructor
  · exact List.mem_of_find?_eq_some
  · intro member
    cases found : (table.entriesAt interest.name.components).find? (· == .interest interest value) with
    | none => exact absurd (beq_self_eq_true _) (List.find?_eq_none.mp found _ member)
    | some entry =>
      have same := List.find?_some found
      rw [beq_iff_eq.mp same]

theorem removeInterest_eq_some_iff (wellFormed : table.WellFormed) {interest : Interest} {value : V} :
    (table.removeInterest interest value).1 = some (.interest interest value) ↔
      .interest interest value ∈ table.toList := by
  rw [← find?_sought_iff wellFormed]
  exact Eq.congr_left Option.head?_toList

theorem WellFormed.removeInterest (wellFormed : table.WellFormed) (interest : Interest) (value : V) :
    (table.removeInterest interest value).2.WellFormed :=
  wellFormed.extract _ (selectFirst_keeps _)

theorem mem_of_mem_removeInterest (wellFormed : table.WellFormed) {interest : Interest} {value : V}
    {entry : Entry V} (found : entry ∈ (table.removeInterest interest value).2.toList) : entry ∈ table.toList := by
  have view := (mem_toList_iff (wellFormed.removeInterest interest value)).mp found
  rw [removeInterest, entriesAt_extract wellFormed.ordered] at view
  rw [mem_toList_iff wellFormed]
  split at view
  · rename_i same
    exact same ▸ selectFirst_keeps _ _ _ view
  · exact view

end

theorem flatMap_along {α : Type} {collect : List (Entry V) → List α} (none : collect [] = [])
    (table : Table V) (path : List Component) :
    (table.along path).flatMap collect = path.inits.flatMap fun beginning => collect (table.entriesAt beginning) := by
  cases path with
  | nil =>
    have nowhere : table.forest.along [] = [] := by
      cases table.forest <;> rfl
    simp [along, entriesAt, nowhere]
  | cons label path => simp [along, entriesAt, Forest.flatMap_along none, List.flatMap_map]

theorem mem_allMatches_iff (wellFormed : table.WellFormed) {target : Target} {entry : Entry V} :
    entry ∈ table.allMatches target ↔ entry ∈ table.toList ∧ entry.matchesTarget target = true := by
  rw [allMatches, flatMap_along rfl, mem_toList_iff wellFormed]
  simp only [List.mem_flatMap, List.mem_inits, List.mem_filter]
  constructor
  · rintro ⟨beginning, -, found, matched⟩
    exact ⟨(wellFormed.filed found).symm ▸ found, matched⟩
  · exact fun ⟨found, matched⟩ => ⟨_, Entry.prefix_path_of_matchesTarget matched, found, matched⟩

end Table

end NamedContent
