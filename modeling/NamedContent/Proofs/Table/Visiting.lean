import NamedContent.Proofs.Table.Listing

/-! What the test of a sweep gets to see.

A test may keep a record of its calls in the state that it carries. The record
shows which entries a sweep visits, in which order and with which answers, and
a test with a record sweeps as it does without. -/

set_option autoImplicit false

namespace NamedContent

variable {V σ : Type}

/-- A test that also records its calls: the entries, in the order of the calls, and
the answers. -/
def recording (keep : Entry V → σ → Bool × σ) (entry : Entry V) (watched : σ × List (Entry V × Bool)) :
    Bool × σ × List (Entry V × Bool) :=
  let (kept, state) := keep entry watched.1
  (kept, state, watched.2 ++ [(entry, kept)])

namespace Forest

-- The record grows by one call for each entry, and those accepted are kept.
theorem filterState_recording (keep : Entry V → σ → Bool × σ) (entries : List (Entry V)) (state : σ)
    (record : List (Entry V × Bool)) :
    ∃ calls, filterState (recording keep) entries (state, record)
        = ((filterState keep entries state).1, (filterState keep entries state).2, record ++ calls) ∧
      calls.map Prod.fst = entries ∧ (filterState keep entries state).1 = (calls.filter Prod.snd).map Prod.fst := by
  induction entries generalizing state record with
  | nil => exact ⟨[], by simp [filterState], rfl, rfl⟩
  | cons first rest ih =>
    obtain ⟨calls, watched, visited, accepted⟩ := ih (keep first state).2 (record ++ [(first, (keep first state).1)])
    refine ⟨(first, (keep first state).1) :: calls, ?_, ?_, ?_⟩
    · simp only [filterState, recording, watched, List.append_assoc, List.singleton_append]
    · rw [List.map_cons, visited]
    · cases kept : (keep first state).1 <;> simp [filterState, kept, accepted]

end Forest

namespace Table

variable {table : Table V}

theorem removed_retain (keep : Entry V → σ → Bool × σ) (table : Table V) (state : σ) :
    (table.retain keep state).1 + (table.retain keep state).2.2.toList.length = table.toList.length :=
  table.removed_sweep keep state

namespace Canonical

-- What a sweep comes to is determined by the list of the entries it keeps.
theorem retain_eq_of_toList_eq {ρ : Type} (canonical : table.Canonical) {keep : Entry V → σ → Bool × σ}
    {other : Entry V → ρ → Bool × ρ} {state : σ} {others : ρ}
    (same : (table.retain keep state).2.2.toList = (table.retain other others).2.2.toList) :
    (table.retain keep state).1 = (table.retain other others).1 ∧
      (table.retain keep state).2.2 = (table.retain other others).2.2 := by
  constructor
  · have removed := table.removed_retain keep state
    have otherRemoved := table.removed_retain other others
    rw [same] at removed
    omega
  · refine (canonical.retain keep state).ext (canonical.retain other others) fun path => ?_
    rw [← filter_toList (canonical.retain keep state).toWellFormed, same,
      filter_toList (canonical.retain other others).toWellFormed]

theorem retain_recording (canonical : table.Canonical) (keep : Entry V → σ → Bool × σ) (state : σ) :
    ∃ calls, table.retain (recording keep) (state, [])
        = ((table.retain keep state).1, ((table.retain keep state).2.1, calls), (table.retain keep state).2.2) ∧
      calls.map Prod.fst = table.toList ∧
      (table.retain keep state).2.2.toList = (calls.filter Prod.snd).map Prod.fst := by
  obtain ⟨calls, recorded, visited, accepted⟩ := Forest.filterState_recording keep table.toList state []
  have plain := table.retain_eq_filterState keep state
  have watched := (table.retain_eq_filterState (recording keep) (state, [])).trans recorded
  rw [← plain] at watched accepted
  obtain ⟨left, states⟩ := Prod.mk.inj watched
  obtain ⟨removed, after⟩ := canonical.retain_eq_of_toList_eq left
  exact ⟨calls, Prod.ext removed (Prod.ext states after), visited, accepted⟩

end Canonical

/-- A sweep calls its test once for every entry of the table: those below a name
before those of the name, smaller names first otherwise, and those of one name in
the order they came. It removes the entries that were rejected, answers their
number, and keeps all others where they are. The counts are right afterwards and no
tree is bare. -/
theorem retain_visits_every_entry_once [DecidableEq V] (changes : List (Change V)) (keep : Entry V → σ → Bool × σ)
    (state : σ) :
    let table := made changes
    let watched := table.retain (recording keep) (state, [])
    let calls := watched.2.1.2
    let visited := calls.map Prod.fst
    let after := watched.2.2
    table.retain keep state = (watched.1, watched.2.1.1, after) ∧
    (visited = inSweptOrder (listed changes) ∧
      visited.Pairwise fun entry other => other.name.isPrefixOf entry.name = true ∨
        entry.name.isPrefixOf other.name = false ∧ entry.name < other.name) ∧
    (∀ path, let here := calls.filter (·.1.name.components = path)
      here.map Prod.fst = table.entriesAt path ∧ after.entriesAt path = (here.filter Prod.snd).map Prod.fst) ∧
    watched.1 = (calls.filter (!·.2)).length ∧
    after.size = after.toList.length ∧ after.nameCount = (after.toList.map Entry.name).toFinset.card ∧
    after.forest.Pruned := by
  intro table watched calls visited after
  have canonical : table.Canonical := canonical_made changes
  have canonical_after : after.Canonical := canonical.retain _ _
  obtain ⟨record, recorded, swept, accepted⟩ := canonical.retain_recording keep state
  have same : table.retain keep state = (watched.1, watched.2.1.1, after) := by simp [watched, after, recorded]
  obtain rfl : record = calls := by simp [calls, watched, recorded]
  have left : after.toList = (calls.filter Prod.snd).map Prod.fst := by rw [← accepted, same]
  have all : visited = table.toList := swept
  refine ⟨same, ⟨?_, ?_⟩, fun path => ⟨?_, ?_⟩, ?_, canonical_after.sized, ?_, canonical_after.pruned⟩
  · rw [all, (listedBy_made changes).inSweptOrder_eq canonical.toWellFormed]
  · rw [all]
    refine (pairwise_toList canonical.toWellFormed).imp fun {entry other} before => ?_
    rw [Name.isPrefixOf_iff, ← Bool.not_eq_true, Name.isPrefixOf_iff]
    exact sweptBefore.iff_prefix_or_lt.mp before
  · rw [← filter_toList canonical.toWellFormed, ← all, List.filter_map]
    rfl
  · rw [← filter_toList canonical_after.toWellFormed, left, List.filter_map, List.filter_filter, List.filter_filter]
    refine congrArg (List.map Prod.fst) (List.filter_congr fun call _ => ?_)
    exact Bool.and_comm _ _
  · have removed := table.removed_retain keep state
    rw [same, left, List.length_map, ← all, List.length_map] at removed
    have parted : calls.length = (calls.filter Prod.snd).length + (calls.filter (!·.2)).length :=
      List.length_eq_length_filter_add Prod.snd
    omega
  · rw [canonical_after.named, canonical_after.card_names]

end Table

end NamedContent
