import NamedContent.Proofs.Table.Sweeping

/-! The order in which a table lists its entries.

A sweep comes to a name after all names below it, and to smaller components
first. The list of all entries follows that order, and those of one name stand
as they are filed. A list is determined by its order and by what it holds of
every name, so any list of the same entries comes to this one by a stable sort. -/

set_option autoImplicit false

namespace NamedContent

section Sorting
variable {α κ : Type} [DecidableEq κ] (key : α → κ) {le : α → α → Bool} {first second values : List α}

-- Two sorted lists with the same values of every key, in the same order, are
-- equal: their first values have one key.
theorem eq_of_pairwise_of_filter_eq {le : α → α → Prop} (first_sorted : first.Pairwise le)
    (second_sorted : second.Pairwise le)
    (antisymm : ∀ value ∈ first, ∀ other ∈ first, le value other → le other value → key value = key other)
    (same : ∀ label, first.filter (key · = label) = second.filter (key · = label)) : first = second := by
  have shared : ∀ value, value ∈ first ↔ value ∈ second := by
    intro value
    have kept := congrArg (value ∈ ·) (same (key value))
    simpa using kept
  induction first generalizing second with
  | nil =>
    cases second with
    | nil => rfl
    | cons head rest => exact absurd ((shared head).mpr List.mem_cons_self) List.not_mem_nil
  | cons head rest ih =>
    cases second with
    | nil => exact absurd ((shared head).mp List.mem_cons_self) List.not_mem_nil
    | cons other others =>
      obtain ⟨below, rest_sorted⟩ := List.pairwise_cons.mp first_sorted
      obtain ⟨other_below, others_sorted⟩ := List.pairwise_cons.mp second_sorted
      have headSame : head = other := by
        rcases List.mem_cons.mp ((shared head).mp List.mem_cons_self) with same | later
        · exact same
        · have found := (shared other).mpr List.mem_cons_self
          rcases List.mem_cons.mp found with same | otherLater
          · exact same.symm
          · have keys := antisymm head List.mem_cons_self other found (below other otherLater) (other_below head later)
            have filtered := same (key head)
            rw [List.filter_cons_of_pos (by simp), List.filter_cons_of_pos (by simp [keys])] at filtered
            exact (List.cons.inj filtered).1
      subst headSame
      have restSame : ∀ label, rest.filter (key · = label) = others.filter (key · = label) := by
        intro label
        have filtered := same label
        by_cases here : key head = label
        · rw [List.filter_cons_of_pos (by simpa using here), List.filter_cons_of_pos (by simpa using here)] at filtered
          exact (List.cons.inj filtered).2
        · rwa [List.filter_cons_of_neg (by simpa using here), List.filter_cons_of_neg (by simpa using here)] at filtered
      refine congrArg _ (ih rest_sorted others_sorted ?_ restSame ?_)
      · exact fun value member other otherMember =>
          antisymm value (List.mem_cons_of_mem _ member) other (List.mem_cons_of_mem _ otherMember)
      · intro value
        have kept := congrArg (value ∈ ·) (restSame (key value))
        simpa using kept

variable (trans : ∀ first second third, le first second = true → le second third = true → le first third = true)
variable (total : ∀ first second, (le first second || le second first) = true)
include trans total

-- A stable sort leaves values that are tied in their order.
theorem filter_mergeSort (values : List α) {test : α → Bool}
    (tied : ∀ value other, test value = true → test other = true → le value other = true) :
    (values.mergeSort le).filter test = values.filter test := by
  have sorted : (values.filter test).Pairwise fun value other => le value other = true :=
    List.pairwise_of_forall_mem_list fun value member other otherMember =>
      tied value other (List.mem_filter.mp member).2 (List.mem_filter.mp otherMember).2
  have within := (List.sublist_mergeSort trans total sorted List.filter_sublist).filter test
  simp only [List.filter_filter, Bool.and_self] at within
  refine (within.eq_of_length ?_).symm
  exact ((List.mergeSort_perm values le).filter test).length_eq.symm

theorem mergeSort_eq_of_filter_eq (refl : ∀ value other, key value = key other → le value other = true)
    (sorted : second.Pairwise fun value other => le value other = true)
    (antisymm : ∀ value ∈ values, ∀ other ∈ values, le value other = true → le other value = true → key value = key other)
    (same : ∀ label, values.filter (key · = label) = second.filter (key · = label)) : values.mergeSort le = second := by
  refine eq_of_pairwise_of_filter_eq key (List.pairwise_mergeSort trans total values) sorted ?_ fun label => ?_
  · simpa only [List.mem_mergeSort] using antisymm
  · rw [filter_mergeSort trans total values, same]
    intro value other here there
    exact refl value other ((of_decide_eq_true here).trans (of_decide_eq_true there).symm)

end Sorting

/-- Whether a sweep comes to the name of one path no later than to that of another. -/
def sweptBefore : List Component → List Component → Bool
  | _, [] => true
  | [], _ :: _ => false
  | first :: rest, other :: others => first < other || (first = other && sweptBefore rest others)

namespace sweptBefore

theorem refl (path : List Component) : sweptBefore path path = true := by
  induction path with
  | nil => rfl
  | cons first rest ih => simp [sweptBefore, ih]

theorem append_left (beginning first second : List Component) :
    sweptBefore (beginning ++ first) (beginning ++ second) = sweptBefore first second := by
  induction beginning with
  | nil => rfl
  | cons head rest ih => simp [sweptBefore, ih, Std.lt_irrefl]

theorem total (first second : List Component) : (sweptBefore first second || sweptBefore second first) = true := by
  induction first generalizing second with
  | nil => cases second <;> rfl
  | cons head rest ih =>
    cases second with
    | nil => rfl
    | cons other others =>
      rcases Std.lt_trichotomy head other with less | rfl | greater
      · simp [sweptBefore, less]
      · simpa [sweptBefore, Std.lt_irrefl] using ih others
      · simp [sweptBefore, greater]

theorem trans {first second third : List Component} (before : sweptBefore first second = true)
    (later : sweptBefore second third = true) : sweptBefore first third = true := by
  induction first generalizing second third with
  | nil =>
    cases second with
    | nil => exact later
    | cons _ _ => exact absurd before (by simp [sweptBefore])
  | cons head rest ih =>
    cases third with
    | nil => rfl
    | cons last lasts =>
      cases second with
      | nil => exact absurd later (by simp [sweptBefore])
      | cons middle middles =>
        simp only [sweptBefore, Bool.or_eq_true, Bool.and_eq_true, decide_eq_true_eq] at before later ⊢
        rcases before with less | ⟨rfl, before⟩
        · rcases later with further | ⟨rfl, -⟩
          · exact Or.inl (Std.lt_trans less further)
          · exact Or.inl less
        · rcases later with further | ⟨rfl, later⟩
          · exact Or.inl further
          · exact Or.inr ⟨rfl, ih before later⟩

theorem antisymm {first second : List Component} (before : sweptBefore first second = true)
    (after : sweptBefore second first = true) : first = second := by
  induction first generalizing second with
  | nil =>
    cases second with
    | nil => rfl
    | cons _ _ => exact absurd before (by simp [sweptBefore])
  | cons head rest ih =>
    cases second with
    | nil => exact absurd after (by simp [sweptBefore])
    | cons other others =>
      simp only [sweptBefore, Bool.or_eq_true, Bool.and_eq_true, decide_eq_true_eq] at before after
      rcases before with less | ⟨rfl, before⟩
      · rcases after with greater | ⟨rfl, -⟩
        · exact absurd (Std.lt_trans less greater) Std.lt_irrefl
        · exact absurd less Std.lt_irrefl
      · rcases after with less | ⟨-, after⟩
        · exact absurd less Std.lt_irrefl
        · rw [ih before after]

-- What lies below a name comes before it, and apart from that the smaller name does.
theorem iff_prefix_or_lt {first second : List Component} :
    sweptBefore first second = true ↔ second <+: first ∨ ¬ first <+: second ∧ first < second := by
  induction first generalizing second with
  | nil => cases second <;> simp [sweptBefore]
  | cons head rest ih =>
    cases second with
    | nil => simp [sweptBefore]
    | cons other others =>
      simp only [sweptBefore, Bool.or_eq_true, Bool.and_eq_true, decide_eq_true_eq, ih, List.cons_prefix_cons,
        List.cons_lt_cons_iff]
      rcases Std.lt_trichotomy head other with less | rfl | greater
      · simp [less, (Std.ne_of_lt less)]
      · simp [Std.lt_irrefl]
      · simp [Std.not_lt.mpr (Std.le_of_lt greater), (Std.ne_of_lt greater), (Std.ne_of_lt greater).symm]

end sweptBefore

variable {V : Type}

theorem Forest.pairwise_toList {forest : Forest V} {beginning : List Component} (ordered : forest.Ordered)
    (filed : forest.Filed beginning) :
    forest.toList.Pairwise fun entry other => sweptBefore entry.name.components other.name.components = true := by
  induction forest generalizing beginning with
  | nil => exact .nil
  | tree label entries below beside below_ih beside_ih =>
    obtain ⟨apart, below_ordered, beside_ordered⟩ := ordered
    have here : ∀ entry ∈ entries, entry.name.components = beginning ++ [label] := fun _ member => filed.here member
    have deeper : ∀ entry ∈ below.toList, ∃ next path, entry.name.components = beginning ++ label :: next :: path := by
      intro entry member
      obtain ⟨next, path, -, named⟩ := filed.deeper.of_mem_toList below_ordered member
      exact ⟨next, path, by rw [named, List.append_assoc]; rfl⟩
    rw [toList, List.pairwise_append, List.pairwise_append]
    refine ⟨⟨below_ih below_ordered filed.deeper, ?_, ?_⟩, beside_ih beside_ordered (filed.aside apart), ?_⟩
    · refine List.pairwise_of_forall_mem_list fun entry member other otherMember => ?_
      rw [here entry member, here other otherMember]
      exact sweptBefore.refl _
    · intro entry member other otherMember
      obtain ⟨next, path, named⟩ := deeper entry member
      rw [named, here other otherMember, sweptBefore.append_left]
      simp [sweptBefore]
    · intro entry member other otherMember
      obtain ⟨next, path, found, named⟩ := (filed.aside apart).of_mem_toList beside_ordered otherMember
      have less : label < next := lt_of_mem_entriesAt apart found
      obtain ⟨rest, spelled⟩ : ∃ rest, entry.name.components = beginning ++ label :: rest := by
        rcases List.mem_append.mp member with lower | held
        · obtain ⟨after, rest, spelled⟩ := deeper entry lower
          exact ⟨after :: rest, spelled⟩
        · exact ⟨[], here entry held⟩
      rw [spelled, named, sweptBefore.append_left]
      simp [sweptBefore, less]

namespace Table

variable {table : Table V}

theorem pairwise_toList (wellFormed : table.WellFormed) :
    table.toList.Pairwise fun entry other => sweptBefore entry.name.components other.name.components = true := by
  rw [toList, List.pairwise_append]
  refine ⟨Forest.pairwise_toList wellFormed.ordered wellFormed.filed_forest, ?_, ?_⟩
  · refine List.pairwise_of_forall_mem_list fun entry member other otherMember => ?_
    rw [wellFormed.root_named member, wellFormed.root_named otherMember]
    rfl
  · intro entry _ other member
    rw [wellFormed.root_named member]
    cases entry.name.components <;> rfl

-- What stands before and after the entries of a name has other names: with
-- those entries replaced by none, nothing is filed there.
theorem filter_toList (wellFormed : table.WellFormed) (path : List Component) :
    table.toList.filter (·.name.components = path) = table.entriesAt path := by
  obtain ⟨front, back, stands, replaced⟩ := exists_toList_setEntries wellFormed.ordered path
  have cleared : (table.setEntries path []).WellFormed :=
    { ordered := ordered_setEntries wellFormed.ordered path []
      filed := by
        intro other entry found
        rw [entriesAt_setEntries wellFormed.ordered] at found
        split at found
        · exact absurd found List.not_mem_nil
        · exact wellFormed.filed found }
  have elsewhere : ∀ entry ∈ front ++ back, entry.name.components ≠ path := by
    intro entry member named
    have listed : entry ∈ (table.setEntries path []).toList := by rwa [replaced, List.append_nil]
    have filed := (mem_toList_iff cleared).mp listed
    rw [entriesAt_setEntries wellFormed.ordered, if_pos named] at filed
    exact absurd filed List.not_mem_nil
  have here : (table.entriesAt path).filter (·.name.components = path) = table.entriesAt path :=
    List.filter_eq_self.mpr fun entry member => decide_eq_true (wellFormed.filed member)
  have before : front.filter (·.name.components = path) = [] :=
    List.filter_eq_nil_iff.mpr fun entry member => by simpa using elsewhere entry (List.mem_append_left _ member)
  have after : back.filter (·.name.components = path) = [] :=
    List.filter_eq_nil_iff.mpr fun entry member => by simpa using elsewhere entry (List.mem_append_right _ member)
  rw [stands, List.filter_append, List.filter_append, here, before, after, List.nil_append, List.append_nil]

end Table

end NamedContent
