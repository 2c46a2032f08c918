import NamedContent.Proofs.Table.View

/-! A table through the list of all its entries.

The entries of one name stand together in that list, and to replace them leaves
the rest of it alone. So an entry that is added or removed changes the list at
one place. -/

set_option autoImplicit false

namespace NamedContent

variable {V σ : Type}

namespace Forest

theorem toList_plant (label : Component) (entries : List (Entry V)) (below beside : Forest V) :
    (plant label entries below beside).toList = below.toList ++ entries ++ beside.toList := by
  unfold plant
  split <;> rfl

theorem toList_sprout (entries : List (Entry V)) (label : Component) (path : List Component)
    (beside : Forest V) : (sprout entries label path beside).toList = entries ++ beside.toList := by
  induction path generalizing label beside with
  | nil => simp [sprout, toList_plant, toList]
  | cons next path ih => simp [sprout, toList_plant, ih, toList]

theorem exists_toList_setEntries {forest : Forest V} (ordered : forest.Ordered) (label : Component)
    (path : List Component) :
    ∃ front back, forest.toList = front ++ forest.entriesAt label path ++ back ∧
      ∀ entries, (forest.setEntries entries label path).toList = front ++ entries ++ back := by
  induction forest generalizing label path with
  | nil => exact ⟨[], [], rfl, fun entries => toList_sprout entries label path .nil⟩
  | tree other held below beside below_ih beside_ih =>
    obtain ⟨apart, below_ordered, beside_ordered⟩ := ordered
    by_cases less : label < other
    · -- A new tree comes first.
      refine ⟨[], (tree other held below beside).toList, ?_, ?_⟩
      · have beyond : (tree other held below beside).Below label := ⟨less, apart.trans less⟩
        rw [entriesAt_of_below beyond]
        rfl
      · intro entries
        unfold setEntries
        rw [if_pos less, toList_sprout]
        rfl
    · by_cases same : label = other
      · subst same
        cases path with
        | nil =>
          refine ⟨below.toList, beside.toList, by rw [entriesAt_here]; rfl, ?_⟩
          intro entries
          rw [setEntries, if_neg less, if_pos rfl, toList_plant]
        | cons next path =>
          obtain ⟨front, back, stands, replaced⟩ := below_ih below_ordered next path
          refine ⟨front, back ++ held ++ beside.toList, by simp [toList, entriesAt_here, stands], ?_⟩
          intro entries
          rw [setEntries, if_neg less, if_pos rfl, toList_plant, replaced entries]
          simp
      · obtain ⟨front, back, stands, replaced⟩ := beside_ih beside_ordered label path
        refine ⟨below.toList ++ held ++ front, back, by simp [toList, entriesAt_beside same, stands], ?_⟩
        intro entries
        simp [setEntries, less, same, toList, replaced entries]

theorem filterState_append {α : Type} (keep : α → σ → Bool × σ) (first second : List α) (state : σ) :
    filterState keep (first ++ second) state
      = ((filterState keep first state).1 ++ (filterState keep second (filterState keep first state).2).1,
        (filterState keep second (filterState keep first state).2).2) := by
  induction first generalizing state with
  | nil => rfl
  | cons head rest ih =>
    simp only [List.cons_append, filterState, ih]
    split <;> rfl

-- A sweep tests the entries in the order in which the forest lists them.
theorem retain_eq_filterState (keep : Entry V → σ → Bool × σ) (forest : Forest V) (sweep : Sweep σ) :
    ((forest.retain keep sweep).1.toList, (forest.retain keep sweep).2.state)
      = filterState keep forest.toList sweep.state := by
  induction forest generalizing sweep with
  | nil => rfl
  | tree label held below beside below_ih beside_ih =>
    have deeper := below_ih sweep
    have aside := beside_ih ((below.retain keep sweep).2.entries keep held).2
    simp only [Prod.ext_iff, Sweep.entries] at deeper aside
    simp only [retain, toList_plant, toList, filterState_append, Sweep.entries, ← deeper.1, ← deeper.2,
      ← aside.1, ← aside.2]

end Forest

namespace Table

variable {table : Table V}

theorem exists_toList_setEntries (ordered : table.forest.Ordered) (path : List Component) :
    ∃ front back, table.toList = front ++ table.entriesAt path ++ back ∧
      ∀ entries, (table.setEntries path entries).toList = front ++ entries ++ back := by
  cases path with
  | nil => exact ⟨table.forest.toList, [], by simp [toList, entriesAt], fun entries => by simp [setEntries, toList]⟩
  | cons label path =>
    obtain ⟨front, back, stands, replaced⟩ := Forest.exists_toList_setEntries ordered label path
    refine ⟨front, back ++ table.rootEntries, by simp [toList, entriesAt, stands], ?_⟩
    intro entries
    simp [setEntries, toList, replaced entries]

theorem perm_add (ordered : table.forest.Ordered) (entry : Entry V) :
    (table.add entry).toList.Perm (entry :: table.toList) := by
  obtain ⟨front, back, stands, replaced⟩ := exists_toList_setEntries ordered entry.name.components
  have grown : (table.add entry).toList = front ++ (table.entriesAt entry.name.components ++ [entry]) ++ back :=
    replaced _
  rw [grown, stands, ← List.append_assoc, List.append_assoc, List.singleton_append]
  exact List.perm_middle

theorem retain_eq_filterState (keep : Entry V → σ → Bool × σ) (table : Table V) (state : σ) :
    ((table.retain keep state).2.2.toList, (table.retain keep state).2.1)
      = Forest.filterState keep table.toList state := by
  have swept := Forest.retain_eq_filterState keep table.forest ⟨state, 0, 0⟩
  simp only [Prod.ext_iff] at swept
  simp only [retain, toList, Forest.filterState_append, Forest.Sweep.entries, ← swept.1, ← swept.2]

theorem toList_filter (table : Table V) (test : Entry V → Bool) :
    (table.filter test).toList = table.toList.filter test := by
  have swept := congrArg Prod.fst (table.retain_eq_filterState (fun entry state => (test entry, state)) ())
  rwa [Forest.filterState_pure] at swept

section
variable [DecidableEq V]

theorem toList_removeInterest (wellFormed : table.WellFormed) (single : table.toList.Nodup)
    {interest : Interest} {value : V} (member : Entry.interest interest value ∈ table.toList) :
    (table.removeInterest interest value).2.toList = table.toList.erase (.interest interest value) := by
  obtain ⟨front, back, stands, replaced⟩ :=
    exists_toList_setEntries wellFormed.ordered interest.name.components
  have filed := (mem_toList_iff wellFormed).mp member
  have taken : (table.removeInterest interest value).2.toList
      = front ++ (table.entriesAt interest.name.components).eraseP
          (fun entry => entry.interest? == some interest && entry.value == value) ++ back := replaced _
  -- The entry cannot stand before those of its name.
  have behind : Entry.interest interest value ∉ front := by
    intro before
    rw [stands, List.append_assoc] at single
    exact (List.nodup_append.mp single).2.2 _ before _ (List.mem_append_left _ filed) rfl
  rw [taken, sought_eq, ← List.erase_eq_eraseP', stands, List.append_assoc, List.append_assoc,
    List.erase_append_right _ behind]
  exact congrArg _ (List.erase_append_left _ filed).symm

end

end Table

end NamedContent
