import Mathlib.Data.List.Count
import NamedContent.Proofs.Table.Listing

/-! What the removals of a table take out.

Each removal answers with what a query of the table would have found, and takes
out that and nothing else: the entries of every name are those there were, in
their order, without the ones answered. -/

set_option autoImplicit false

namespace NamedContent

section Silent
variable {α β : Type}

theorem flatMap_filter_of_silent {test : α → Bool} {collect : α → List β}
    (silent : ∀ value, test value = false → collect value = []) (values : List α) :
    (values.filter test).flatMap collect = values.flatMap collect := by
  induction values with
  | nil => rfl
  | cons first rest ih =>
    cases passes : test first with
    | true => rw [List.filter_cons_of_pos passes, List.flatMap_cons, List.flatMap_cons, ih]
    | false => simp [passes, silent first passes, ih]

end Silent

section Without
variable {α : Type} [DecidableEq α] {values taken : List α} {test : α → Bool}

theorem eraseP_eq_diff_find? (values : List α) (test : α → Bool) :
    values.eraseP test = values.diff (values.find? test).toList := by
  induction values with
  | nil => rfl
  | cons first rest ih =>
    by_cases passes : test first = true
    · simp [List.eraseP_cons_of_pos passes, List.find?_cons_of_pos passes]
    · rw [List.eraseP_cons_of_neg passes, List.find?_cons_of_neg passes, ih]
      cases found : rest.find? test with
      | none => rfl
      | some value =>
        have other : first ≠ value := by
          rintro rfl
          exact passes (List.find?_some found)
        simp [List.erase_cons_tail, other]

-- To take away as many of each passing value as there are leaves those that do not pass.
theorem diff_eq_filter (passing : ∀ value ∈ taken, test value = true)
    (enough : ∀ value, test value = true → values.count value ≤ taken.count value) :
    values.diff taken = values.filter (!test ·) := by
  induction taken generalizing values with
  | nil =>
    refine (List.filter_eq_self.mpr fun value member => ?_).symm
    rw [Bool.not_eq_true', Bool.eq_false_iff]
    intro passes
    exact absurd (enough value passes) (Nat.not_le.mpr (List.count_pos_iff.mpr member))
  | cons first rest ih =>
    obtain ⟨passes, passing⟩ := List.forall_mem_cons.mp passing
    have fewer : ∀ value, test value = true → (values.erase first).count value ≤ rest.count value := by
      intro value valuePasses
      have bound := enough value valuePasses
      by_cases same : value = first
      · subst same
        rw [List.count_cons_self] at bound
        rw [List.count_erase_self]
        omega
      · rw [List.count_cons_of_ne (Ne.symm same)] at bound
        rwa [List.count_erase_of_ne same]
    have apart : first ∉ values.filter (!test ·) := by simp [passes]
    rw [List.diff_cons, ih passing fewer, ← List.erase_filter, List.erase_of_not_mem apart]

end Without

namespace Table

variable {V : Type} {table after : Table V} {taken : List (Entry V)}

/-! Names with a match are cleared one after the other. -/

-- The names differ, so each removal finds its entries as they were.
theorem removed_extractEach (ordered : table.forest.Ordered) (test : Entry V → Bool) {path : List Component}
    {places : List (List (Entry V) × Nat)} (apart : (places.map fun place => path.take place.2).Nodup)
    (removed : List (Entry V)) :
    (places.foldl
      (fun (removed, table) (_, depth) =>
        let (more, table) := table.extract (path.take depth) (·.partition test)
        (removed ++ more, table))
      (removed, table)).1
      = removed ++ places.flatMap fun place => (table.entriesAt (path.take place.2)).filter test := by
  induction places generalizing table removed with
  | nil => simp
  | cons place rest ih =>
    obtain ⟨new, apart⟩ := List.nodup_cons.mp apart
    have taken : (table.extract (path.take place.2) (List.partition test)).1
        = (table.entriesAt (path.take place.2)).filter test := by
      rw [extract, List.partition_eq_filter_filter]
    have ordered_after : (table.extract (path.take place.2) (List.partition test)).2.forest.Ordered :=
      ordered_setEntries ordered _ _
    refine (ih ordered_after apart (removed ++ (table.extract (path.take place.2) (List.partition test)).1)).trans ?_
    rw [taken, List.flatMap_cons, ← List.append_assoc]
    refine congrArg _ (List.flatMap_congr fun other member => ?_)
    have differs : path.take other.2 ≠ path.take place.2 :=
      fun equal => new (List.mem_map.mpr ⟨other, member, equal⟩)
    rw [entriesAt_extract ordered, if_neg differs]

theorem nodup_matchPlaces (table : Table V) (target : Target) :
    ((table.matchPlaces target).map fun place => target.path.take place.2).Nodup := by
  have beginnings : ((table.matchDepths target).map (target.path.take ·)).Nodup := by
    refine List.Nodup.map_on (fun depth member other otherMember same => ?_) ?_
    · have within := (mem_matchDepths_iff.mp member).1
      have otherWithin := (mem_matchDepths_iff.mp otherMember).1
      have widths := congrArg List.length same
      rwa [List.length_take_of_le within, List.length_take_of_le otherWithin] at widths
    · exact (table.matchDepths_ascending target).imp fun less => less.ne
  rwa [← map_matchPlaces, List.map_map] at beginnings

theorem flatMap_matchPlaces (table : Table V) (target : Target) :
    (table.matchPlaces target).flatMap (fun place => place.1.filter (·.matchesTarget target))
      = table.allMatches target := by
  have silent : ∀ place : List (Entry V) × Nat, place.1.any (·.matchesTarget target) = false →
      place.1.filter (·.matchesTarget target) = [] := by
    intro place nothing
    rw [List.filter_eq_nil_iff]
    simpa using nothing
  rw [matchPlaces, flatMap_filter_of_silent silent, allMatches, ← List.flatMap_map, List.zipIdx_map_fst]

theorem removed_removeMatches (ordered : table.forest.Ordered) (target : Target) :
    (table.removeMatches target).1 = table.allMatches target := by
  have removed := removed_extractEach ordered (·.matchesTarget target) (table.nodup_matchPlaces target) []
  refine removed.trans ((List.nil_append _).trans ?_)
  rw [← flatMap_matchPlaces]
  exact List.flatMap_congr fun place member => by rw [entries_of_mem_matchPlaces member]

theorem entriesAt_removeMatches (wellFormed : table.WellFormed) (target : Target) (path : List Component) :
    (table.removeMatches target).2.entriesAt path = (table.entriesAt path).filter (!·.matchesTarget target) := by
  have listed : table.ListedBy table.toList := filter_toList wellFormed
  rw [← listed.removeMatches wellFormed target, listed.filter_filter]

theorem allMatches_removeMatches (canonical : table.Canonical) (target : Target) :
    (table.removeMatches target).2.allMatches target = [] := by
  have wellFormed := (canonical.removeMatches target).toWellFormed
  refine List.eq_nil_iff_forall_not_mem.mpr fun entry member => ?_
  obtain ⟨listed, matched⟩ := (mem_allMatches_iff wellFormed).mp member
  have left := (mem_toList_iff wellFormed).mp listed
  rw [entriesAt_removeMatches canonical.toWellFormed] at left
  simp [matched] at left

/-! What each removal leaves. -/

variable [DecidableEq V]

/-- A table without some of its entries, of equal ones those that came first. The
others stand in their order, and without anything taken the table is the same. -/
structure TakesOut (table : Table V) (taken : List (Entry V)) (after : Table V) : Prop where
  left : ∀ path, after.entriesAt path = (table.entriesAt path).diff taken
  unchanged : taken = [] → after = table

namespace Canonical

theorem takesOut (canonical : table.Canonical) (canonical_after : after.Canonical)
    (left : ∀ path, after.entriesAt path = (table.entriesAt path).diff taken) : table.TakesOut taken after where
  left := left
  unchanged := by
    rintro rfl
    exact canonical_after.ext canonical fun path => (left path).trans (List.diff_nil _)

theorem takesOut_extractFirst (canonical : table.Canonical) (path : List Component) (test : Entry V → Bool) :
    table.TakesOut ((table.entriesAt path).find? test).toList (table.extract path (selectFirst test)).2 := by
  refine canonical.takesOut (canonical.extract (parts_selectFirst test) path) fun other => ?_
  rw [entriesAt_extract canonical.ordered]
  split
  · rename_i same
    subst same
    exact eraseP_eq_diff_find? _ test
  · rename_i apart
    cases found : (table.entriesAt path).find? test with
    | none => rfl
    | some entry =>
      -- An entry is filed under its own name alone.
      have elsewhere : entry ∉ table.entriesAt other := fun member =>
        apart ((canonical.filed member).symm.trans (canonical.filed (List.mem_of_find?_eq_some found)))
      simp [List.erase_of_not_mem elsewhere]

theorem removeMatch_takes (canonical : table.Canonical) (target : Target) :
    (table.removeMatch target).1 = table.match? target ∧
      table.TakesOut (table.match? target).toList (table.removeMatch target).2 := by
  rw [removeMatch_eq, match?_eq]
  cases (table.matchDepths target).getLast? with
  | none => exact ⟨rfl, canonical.takesOut canonical fun _ => rfl⟩
  | some depth => exact ⟨Option.head?_toList, canonical.takesOut_extractFirst _ _⟩

-- All matches are taken, so it makes no difference which of equal ones come first.
theorem removeMatches_takes (canonical : table.Canonical) (target : Target) :
    table.TakesOut (table.allMatches target) (table.removeMatches target).2 := by
  have wellFormed := canonical.toWellFormed
  refine canonical.takesOut (canonical.removeMatches target) fun path => ?_
  rw [entriesAt_removeMatches wellFormed]
  refine (diff_eq_filter (fun entry member => ((mem_allMatches_iff wellFormed).mp member).2) ?_).symm
  intro entry matched
  have listed : table.ListedBy table.toList := filter_toList wellFormed
  have all : (table.allMatches target).Perm (table.toList.filter (·.matchesTarget target)) := by
    rw [listed.allMatches_eq wellFormed]
    exact List.mergeSort_perm _ _
  rw [all.count_eq, List.count_filter matched, ← listed path]
  exact List.filter_sublist.count_le entry

end Canonical

/-- Each removal takes out what a query shows. To remove a match takes the one that
`match?` finds, to remove all matches those that `allMatches` lists, in that order, so
that none is left. To remove a name or an interest with a value takes the first
entry of the kind and value wanted under exactly that name. What the other
entries of every name are, and in which order, stays as it was. -/
theorem removals_take_what_queries_show (changes : List (Change V)) (target : Target) (name : Name)
    (interest : Interest) (value : V) :
    let table := made changes
    let named := (table.entriesAt name.components).find? (·.value == value)
    let asked := (table.entriesAt interest.name.components).find? fun entry =>
      entry.interest? == some interest && entry.value == value
    ((table.removeMatch target).1 = table.match? target ∧
      table.TakesOut (table.match? target).toList (table.removeMatch target).2) ∧
    ((table.removeMatches target).1 = table.allMatches target ∧
      table.TakesOut (table.allMatches target) (table.removeMatches target).2 ∧
      (table.removeMatches target).2.allMatches target = []) ∧
    ((table.removeName name value).1 = named ∧ table.TakesOut named.toList (table.removeName name value).2) ∧
    ((table.removeInterest interest value).1 = asked ∧
      table.TakesOut asked.toList (table.removeInterest interest value).2) := by
  intro table named asked
  have canonical : table.Canonical := canonical_made changes
  refine ⟨canonical.removeMatch_takes target, ⟨?_, canonical.removeMatches_takes target, ?_⟩, ⟨?_, ?_⟩, ?_, ?_⟩
  · exact removed_removeMatches canonical.ordered target
  · exact allMatches_removeMatches canonical target
  · exact Option.head?_toList
  · exact canonical.takesOut_extractFirst _ _
  · exact Option.head?_toList
  · exact canonical.takesOut_extractFirst _ _

end Table

end NamedContent
