import NamedContent.Proofs.NameIndex.Members

/-! The run of names that one name begins.

In the order of names it starts at that name and has no gap. So a scan of a
collection that starts there and stops at the first name outside has found every
member of the run, and a look at the first name from there on tells whether there
is one at all. -/

set_option autoImplicit false

namespace NamedContent

variable {β : Type} {key : β → Name}

namespace NameIndex

variable {index : NameIndex key}

-- What the scan finds is what a look at every member would keep.
theorem under_eq_filter (index : NameIndex key) (beginning : Name) :
    index.under beginning = index.values.filter (beginning.isPrefixOf <| key ·) := by
  refine (index.ascending_under beginning).eq_of_mem_iff (index.ascending.filter _) fun value => ?_
  rw [mem_under_iff, List.mem_filter]

theorem map_key_under (index : NameIndex key) (beginning : Name) :
    (index.under beginning).map key = (index.values.map key).filter beginning.isPrefixOf := by
  rw [under_eq_filter, List.filter_map]
  rfl

/-- A name is at or below all that it begins, and whatever lies between two such
names is one of them. So in any collection the scan that starts at the name and goes
on as long as the name begins what it meets yields exactly the names it begins, in
ascending order, and the first name from there on is begun by it exactly if some
name is. -/
theorem names_under_form_one_run (index : NameIndex key) (beginning : Name) :
    (∀ name, beginning.isPrefixOf name = true → beginning ≤ name) ∧
    (∀ low middle high, beginning.isPrefixOf low = true → beginning.isPrefixOf high = true →
      low ≤ middle → middle ≤ high → beginning.isPrefixOf middle = true) ∧
    (index.under beginning).map key = (index.values.map key).filter beginning.isPrefixOf ∧
    ((index.under beginning).map key).Pairwise (· < ·) ∧
    (index.anyUnder beginning = true ↔ ∃ name ∈ index.values.map key, beginning.isPrefixOf name = true) := by
  refine ⟨fun name => Name.le_of_isPrefixOf, ?_, index.map_key_under beginning, ?_, ?_⟩
  · intro low middle high beginsLow beginsHigh above below
    exact Name.isPrefixOf_of_between (Std.le_trans (Name.le_of_isPrefixOf beginsLow) above) below beginsHigh
  · exact List.pairwise_map.mpr (index.ascending_under beginning)
  · rw [anyUnder_iff]
    constructor
    · exact fun ⟨value, member, begins⟩ => ⟨key value, List.mem_map_of_mem member, begins⟩
    · intro ⟨name, listed, begins⟩
      obtain ⟨value, member, rfl⟩ := List.mem_map.mp listed
      exact ⟨value, member, begins⟩

end NameIndex

namespace Sample

def neighbours : NameIndex (fun name : Name => name) :=
  ([[], [[0x60, 0x7A]], [[0x61]], [[0x61], []], [[0x61], [0x62]], [[0x61, 0x62]], [[0x62]]].map Name.ofBytes).foldl
    NameIndex.insert .empty

end Sample

open Sample in
theorem letter_begins_run_of_three :
    (neighbours.under (.ofBytes [[0x61]])).map id = [[[0x61]], [[0x61], []], [[0x61], [0x62]]].map Name.ofBytes ∧
      (Name.ofBytes [[0x61]]).isPrefixOf (.ofBytes [[0x61], []]) = true ∧
      neighbours.anyUnder (.ofBytes [[0x61]]) = true ∧ neighbours.anyUnder (.ofBytes [[0x63]]) = false := by
  obtain ⟨-, between, scanned, -, found⟩ := NameIndex.names_under_form_one_run neighbours (.ofBytes [[0x61]])
  obtain ⟨-, -, -, -, absent⟩ := NameIndex.names_under_form_one_run neighbours (.ofBytes [[0x63]])
  refine ⟨scanned.trans (by decide), ?_, found.mpr (by decide), ?_⟩
  · exact between (.ofBytes [[0x61]]) _ (.ofBytes [[0x61], [0x62]]) (by decide) (by decide) (by decide) (by decide)
  · exact Bool.eq_false_iff.mpr (mt absent.mp (by decide))

end NamedContent
