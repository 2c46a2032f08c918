import NamedContent.Proofs.Table.Contents
import NamedContent.Proofs.Table.Shape

/-! What a sweep through a table takes out.

The test of a sweep may answer differently each time. Whatever it answers, the
entries kept at a path are some of those held there, in their order, and the
counts of the sweep make up the difference. -/

set_option autoImplicit false

namespace NamedContent

variable {V σ : Type}

namespace Forest

variable {forest : Forest V} (keep : Entry V → σ → Bool × σ)

theorem filterState_sublist {α : Type} (keep : α → σ → Bool × σ) (values : List α) (state : σ) :
    (filterState keep values state).1.Sublist values := by
  induction values generalizing state with
  | nil => exact .slnil
  | cons first rest ih =>
    simp only [filterState]
    split
    · exact (ih _).cons_cons first
    · exact (ih _).cons first

theorem Sweep.removed_entries (held : List (Entry V)) (sweep : Sweep σ) :
    (sweep.entries keep held).2.removed + (sweep.entries keep held).1.length = sweep.removed + held.length := by
  have fewer := (filterState_sublist keep held sweep.state).length_le
  simp only [Sweep.entries]
  omega

theorem Sweep.emptied_entries (held : List (Entry V)) (sweep : Sweep σ) :
    (sweep.entries keep held).2.emptied + occupied (sweep.entries keep held).1 = sweep.emptied + occupied held := by
  have some := filterState_sublist keep held sweep.state
  cases held with
  | nil => simp [Sweep.entries, List.sublist_nil.mp some]
  | cons first rest =>
    cases kept : (filterState keep (first :: rest) sweep.state).1 <;> simp [Sweep.entries, occupied, kept]

theorem removed_retain (forest : Forest V) (sweep : Sweep σ) :
    (forest.retain keep sweep).2.removed + (forest.retain keep sweep).1.toList.length
      = sweep.removed + forest.toList.length := by
  induction forest generalizing sweep with
  | nil => rfl
  | tree label held below beside below_ih beside_ih =>
    have deeper := below_ih sweep
    have here := Sweep.removed_entries keep held (below.retain keep sweep).2
    have aside := beside_ih ((below.retain keep sweep).2.entries keep held).2
    simp only [retain, toList_plant, toList, List.length_append]
    omega

theorem emptied_retain (forest : Forest V) (sweep : Sweep σ) :
    (forest.retain keep sweep).2.emptied + (forest.retain keep sweep).1.nameCount
      = sweep.emptied + forest.nameCount := by
  induction forest generalizing sweep with
  | nil => rfl
  | tree label held below beside below_ih beside_ih =>
    have deeper := below_ih sweep
    have here := Sweep.emptied_entries keep held (below.retain keep sweep).2
    have aside := beside_ih ((below.retain keep sweep).2.entries keep held).2
    simp only [retain, nameCount_plant, nameCount]
    omega

theorem entriesAt_retain_sublist (ordered : forest.Ordered) (sweep : Sweep σ) (label : Component)
    (path : List Component) :
    ((forest.retain keep sweep).1.entriesAt label path).Sublist (forest.entriesAt label path) := by
  induction forest generalizing sweep label path with
  | nil => exact .slnil
  | tree other held below beside below_ih beside_ih =>
    obtain ⟨apart, below_ordered, beside_ordered⟩ := ordered
    rw [Forest.retain, entriesAt_plant (apart.retain _ _)]
    by_cases same : label = other
    · subst same
      rw [entriesAt_here, entriesAt_here]
      cases path with
      | nil => exact filterState_sublist keep held _
      | cons next path => exact below_ih below_ordered _ next path
    · rw [entriesAt_beside same, entriesAt_beside same]
      exact beside_ih beside_ordered _ label path

end Forest

namespace Table

variable {table : Table V}

theorem WellFormed.filed_forest (wellFormed : table.WellFormed) : table.forest.Filed [] := by
  intro label path entry found
  have filed : entry ∈ table.entriesAt (label :: path) := found
  exact wellFormed.filed filed

theorem WellFormed.root_named (wellFormed : table.WellFormed) {entry : Entry V} (member : entry ∈ table.rootEntries) :
    entry.name = .root := by
  have filed : entry ∈ table.entriesAt [] := member
  exact congrArg Name.mk (wellFormed.filed filed)

variable (keep : Entry V → σ → Bool × σ)

def sweep (table : Table V) (state : σ) : Forest.Sweep σ :=
  ((table.forest.retain keep ⟨state, 0, 0⟩).2.entries keep table.rootEntries).2

theorem size_retain (table : Table V) (state : σ) :
    (table.retain keep state).2.2.size = table.size - (table.sweep keep state).removed := rfl

theorem nameCount_retain (table : Table V) (state : σ) :
    (table.retain keep state).2.2.nameCount = table.nameCount - (table.sweep keep state).emptied := rfl

theorem removed_sweep (table : Table V) (state : σ) :
    (table.sweep keep state).removed + (table.retain keep state).2.2.toList.length = table.toList.length := by
  have inner := Forest.removed_retain keep table.forest ⟨state, 0, 0⟩
  have root := Forest.Sweep.removed_entries keep table.rootEntries (table.forest.retain keep ⟨state, 0, 0⟩).2
  simp only [Nat.zero_add] at inner
  simp only [sweep, retain, toList, List.length_append]
  omega

def occupied (table : Table V) : Nat := table.forest.nameCount + Forest.occupied table.rootEntries

theorem emptied_sweep (table : Table V) (state : σ) :
    (table.sweep keep state).emptied + (table.retain keep state).2.2.occupied = table.occupied := by
  have inner := Forest.emptied_retain keep table.forest ⟨state, 0, 0⟩
  have root := Forest.Sweep.emptied_entries keep table.rootEntries (table.forest.retain keep ⟨state, 0, 0⟩).2
  simp only [Nat.zero_add] at inner
  simp only [sweep, retain, occupied]
  omega

theorem entriesAt_retain_sublist (ordered : table.forest.Ordered) (state : σ) (path : List Component) :
    ((table.retain keep state).2.2.entriesAt path).Sublist (table.entriesAt path) := by
  cases path with
  | nil => exact Forest.filterState_sublist keep table.rootEntries _
  | cons label path => exact Forest.entriesAt_retain_sublist keep ordered _ label path

theorem WellFormed.retain (wellFormed : table.WellFormed) (state : σ) :
    (table.retain keep state).2.2.WellFormed where
  ordered := wellFormed.ordered.retain _ _
  filed := fun found =>
    wellFormed.filed ((entriesAt_retain_sublist keep wellFormed.ordered state _).subset found)

end Table

end NamedContent
