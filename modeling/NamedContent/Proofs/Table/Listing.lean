import Mathlib.Data.List.Find
import NamedContent.Proofs.Table.Depths
import NamedContent.Proofs.Table.Ordering

/-! Queries of a table and tests of every entry.

Beside a table stands a plain list of its entries, in which the entries of one
name stand in the order they came, and which is searched from end to end. It
follows the table through all changes. So a query along one path finds what a
test of all entries finds. -/

set_option autoImplicit false

namespace NamedContent

variable {V σ : Type}

/-- Whether an entry matches a target, and no entry of a list that does has a longer name. -/
def Entry.isLongest (entries : List (Entry V)) (target : Target) (entry : Entry V) : Bool :=
  entry.matchesTarget target
    && entries.all fun other => !other.matchesTarget target || other.name.length ≤ entry.name.length

def shorterFirst (entries : List (Entry V)) : List (Entry V) :=
  entries.mergeSort fun entry other => entry.name.length ≤ other.name.length

def inSweptOrder (entries : List (Entry V)) : List (Entry V) :=
  entries.mergeSort fun entry other => sweptBefore entry.name.components other.name.components

def Change.applyTo [DecidableEq V] (entries : List (Entry V)) : Change V → List (Entry V)
  | .addName name value => entries ++ [.bare name value]
  | .addInterest interest value => entries ++ [.interest interest value]
  | .removeName name value => entries.eraseP fun entry => entry.name == name && entry.value == value
  | .removeInterest interest value =>
    entries.eraseP fun entry => entry.interest? == some interest && entry.value == value
  | .removeMatch target => entries.eraseP (·.isLongest entries target)
  | .removeMatches target => entries.filter fun entry => !entry.matchesTarget target
  | .retain keep state => (Forest.filterState keep (inSweptOrder entries) state).1
  | .clear => []

def listed [DecidableEq V] (changes : List (Change V)) : List (Entry V) := changes.foldl Change.applyTo []

section ErasedFirst
variable {α : Type} {values : List α} {here test choose : α → Bool}

-- The first value chosen is the first that passes the test among those here.
theorem filter_eraseP_here (agree : ∀ value ∈ values, choose value = (here value && test value)) :
    (values.eraseP choose).filter here = (values.filter here).eraseP test := by
  rw [List.eraseP_filter]
  refine congrArg _ ?_
  induction values with
  | nil => rfl
  | cons first rest ih =>
    have later := ih fun value member => agree value (List.mem_cons_of_mem _ member)
    rw [List.eraseP_cons, List.eraseP_cons, agree first List.mem_cons_self, later, Bool.and_comm]

theorem filter_eraseP_elsewhere {there : α → Bool} (agree : ∀ value ∈ values, choose value = (here value && test value))
    (apart : ∀ value, there value = true → here value = false) :
    (values.eraseP choose).filter there = values.filter there := by
  induction values with
  | nil => rfl
  | cons first rest ih =>
    have later := ih fun value member => agree value (List.mem_cons_of_mem _ member)
    by_cases chosen : choose first = true
    · have outside : there first ≠ true := by
        intro within
        rw [agree first List.mem_cons_self, apart first within] at chosen
        exact absurd chosen (by simp)
      rw [List.eraseP_cons_of_pos chosen, List.filter_cons_of_neg outside]
    · rw [List.eraseP_cons_of_neg chosen, List.filter_cons, List.filter_cons, later]

end ErasedFirst

section Beginnings
variable {α β : Type}

theorem pairwise_length_inits (path : List α) : path.inits.Pairwise fun shorter longer => shorter.length < longer.length := by
  induction path with
  | nil => simp
  | cons first rest ih =>
    rw [List.inits_cons, List.pairwise_cons, List.pairwise_map]
    refine ⟨?_, ih.imp fun less => by simpa using less⟩
    simp only [List.mem_map]
    rintro _ ⟨beginning, -, rfl⟩
    exact Nat.zero_lt_succ _

-- Only one value of a list without repetitions contributes.
theorem flatMap_ite_eq [DecidableEq α] {values : List α} {chosen : α} (member : chosen ∈ values) (single : values.Nodup)
    (contributed : List β) : (values.flatMap fun value => if value = chosen then contributed else []) = contributed := by
  induction values with
  | nil => exact absurd member List.not_mem_nil
  | cons first rest ih =>
    obtain ⟨apart, single⟩ := List.nodup_cons.mp single
    rw [List.flatMap_cons]
    rcases List.mem_cons.mp member with rfl | later
    · have nothing : (rest.flatMap fun value => if value = chosen then contributed else []) = [] :=
        List.flatMap_eq_nil_iff.mpr fun value held => if_neg (ne_of_mem_of_not_mem held apart)
      rw [if_pos rfl, nothing, List.append_nil]
    · rw [if_neg (ne_of_mem_of_not_mem later apart).symm, List.nil_append, ih later single]

end Beginnings

namespace Table

variable {table : Table V} {entries : List (Entry V)}

-- What several removals of one test leave of every name.
theorem entriesAt_extractAll (wellFormed : table.WellFormed) (test : Entry V → Bool) (paths : List (List Component))
    (path : List Component) :
    (table.extractAll (paths.map fun taken => (taken, test))).entriesAt path
      = if path ∈ paths then (table.entriesAt path).filter (!test ·) else table.entriesAt path := by
  induction paths generalizing table with
  | nil => simp [extractAll]
  | cons first rest ih =>
    have kept := wellFormed.extract first (parts_partition test).mem_kept
    have step : table.extractAll ((first :: rest).map fun taken => (taken, test))
        = (table.extract first (List.partition test)).2.extractAll (rest.map fun taken => (taken, test)) := rfl
    rw [step, ih kept, entriesAt_extract wellFormed.ordered, List.partition_eq_filter_filter]
    by_cases here : path = first
    · subst here
      by_cases again : path ∈ rest <;> simp [again, List.filter_filter, Function.comp_def]
    · simp [here]

/-- A list holds of every name the entries that are filed there, in their order. -/
def ListedBy (table : Table V) (entries : List (Entry V)) : Prop :=
  ∀ path, entries.filter (·.name.components = path) = table.entriesAt path

namespace ListedBy

theorem mem_iff (listed : table.ListedBy entries) {entry : Entry V} :
    entry ∈ entries ↔ entry ∈ table.entriesAt entry.name.components := by
  rw [← listed]
  simp

theorem filter_filter (listed : table.ListedBy entries) (test : Entry V → Bool) (path : List Component) :
    (entries.filter test).filter (·.name.components = path) = (table.entriesAt path).filter test := by
  rw [← listed, List.filter_filter, List.filter_filter]
  exact List.filter_congr fun _ _ => Bool.and_comm _ _

-- Any list of a table comes to the table's own by a stable sort.
theorem inSweptOrder_eq (listed : table.ListedBy entries) (wellFormed : table.WellFormed) :
    inSweptOrder entries = table.toList := by
  refine mergeSort_eq_of_filter_eq (·.name.components) ?_ ?_ ?_ (pairwise_toList wellFormed) ?_ ?_
  · exact fun _ _ _ => sweptBefore.trans
  · exact fun _ _ => sweptBefore.total _ _
  · intro entry other same
    exact same ▸ sweptBefore.refl _
  · exact fun _ _ _ _ => sweptBefore.antisymm
  · exact fun path => (listed path).trans (filter_toList wellFormed path).symm

theorem perm (listed : table.ListedBy entries) (wellFormed : table.WellFormed) : table.toList.Perm entries := by
  rw [← listed.inSweptOrder_eq wellFormed]
  exact List.mergeSort_perm _ _

/-! The list follows the table through every change. -/

theorem add (listed : table.ListedBy entries) (ordered : table.forest.Ordered) (entry : Entry V) :
    (table.add entry).ListedBy (entries ++ [entry]) := by
  intro path
  rw [entriesAt_add ordered, List.filter_append, listed]
  split
  · rename_i same
    simp [same]
  · rename_i apart
    simp [Ne.symm apart]

theorem extractFirst (listed : table.ListedBy entries) (ordered : table.forest.Ordered) {path : List Component}
    {test choose : Entry V → Bool}
    (agree : ∀ entry ∈ entries, choose entry = (decide (entry.name.components = path) && test entry)) :
    (table.extract path (selectFirst test)).2.ListedBy (entries.eraseP choose) := by
  intro other
  rw [entriesAt_extract ordered]
  split
  · rename_i same
    subst same
    rw [filter_eraseP_here agree, listed]
    rfl
  · rename_i apart
    rw [filter_eraseP_elsewhere agree, listed]
    intro entry there
    exact decide_eq_false fun here => apart ((of_decide_eq_true there).symm.trans here)

theorem length_mem_matchDepths (listed : table.ListedBy entries) {target : Target} {entry : Entry V}
    (member : entry ∈ entries) (matched : entry.matchesTarget target = true) :
    entry.name.length ∈ table.matchDepths target ∧
      entry.name.components = target.path.take entry.name.length := by
  have begins := Entry.prefix_path_of_matchesTarget matched
  have spelled := List.prefix_iff_eq_take.mp begins
  exact ⟨mem_matchDepths_iff.mpr ⟨begins.length_le, entry, spelled ▸ listed.mem_iff.mp member, matched⟩, spelled⟩

theorem isLongest_eq (listed : table.ListedBy entries) (wellFormed : table.WellFormed) {target : Target} {depth : Nat}
    (deepest : (table.matchDepths target).getLast? = some depth) {entry : Entry V} (member : entry ∈ entries) :
    entry.isLongest entries target
      = (decide (entry.name.components = target.path.take depth) && entry.matchesTarget target) := by
  cases matched : entry.matchesTarget target with
  | false => simp [Entry.isLongest, matched]
  | true =>
    obtain ⟨within, other, found, otherMatched⟩ := mem_matchDepths_iff.mp (List.mem_of_getLast? deepest)
    have otherNamed := wellFormed.filed found
    have otherLength : other.name.length = depth := by
      rw [Name.length, otherNamed, List.length_take_of_le within]
    obtain ⟨reached, spelled⟩ := listed.length_mem_matchDepths member matched
    rw [Entry.isLongest, matched, Bool.true_and, Bool.and_true, Bool.eq_iff_iff, List.all_eq_true, decide_eq_true_eq]
    constructor
    · intro longest
      have least := longest other (listed.mem_iff.mpr (otherNamed.symm ▸ found))
      rw [otherMatched, otherLength] at least
      have most := le_of_getLast?_matchDepths deepest reached
      have same : entry.name.length = depth := Nat.le_antisymm most (by simpa using least)
      rw [spelled, same]
    · intro named candidate candidateMember
      have same : entry.name.length = depth := by rw [Name.length, named, List.length_take_of_le within]
      cases candidateMatched : candidate.matchesTarget target with
      | false => rfl
      | true =>
        have candidateReached := (listed.length_mem_matchDepths candidateMember candidateMatched).1
        simpa [same] using le_of_getLast?_matchDepths deepest candidateReached

theorem unmatched (listed : table.ListedBy entries) {target : Target}
    (nowhere : (table.matchDepths target).getLast? = none) {entry : Entry V} (member : entry ∈ entries) :
    entry.matchesTarget target = false := by
  rw [Bool.eq_false_iff]
  intro matched
  have reached := (listed.length_mem_matchDepths member matched).1
  rw [List.getLast?_eq_none_iff.mp nowhere] at reached
  exact absurd reached List.not_mem_nil

theorem removeMatch (listed : table.ListedBy entries) (wellFormed : table.WellFormed) (target : Target) :
    (table.removeMatch target).2.ListedBy (entries.eraseP (·.isLongest entries target)) := by
  rw [removeMatch_eq]
  cases deepest : (table.matchDepths target).getLast? with
  | none =>
    rw [List.eraseP_of_forall_not fun entry member => by simp [Entry.isLongest, listed.unmatched deepest member]]
    exact listed
  | some depth => exact listed.extractFirst wellFormed.ordered fun entry => listed.isLongest_eq wellFormed deepest

theorem removeMatches (listed : table.ListedBy entries) (wellFormed : table.WellFormed) (target : Target) :
    (table.removeMatches target).2.ListedBy (entries.filter fun entry => !entry.matchesTarget target) := by
  intro path
  have steps := entriesAt_extractAll wellFormed (·.matchesTarget target)
    ((table.matchDepths target).map (target.path.take ·)) path
  rw [List.map_map] at steps
  rw [listed.filter_filter, removeMatches_eq]
  refine Eq.trans ?_ steps.symm
  split
  · rfl
  · rename_i apart
    rw [List.filter_eq_self]
    intro entry found
    rw [Bool.not_eq_true', Bool.eq_false_iff]
    intro matched
    have named := wellFormed.filed found
    obtain ⟨reached, spelled⟩ := listed.length_mem_matchDepths (listed.mem_iff.mpr (named.symm ▸ found)) matched
    exact apart (List.mem_map.mpr ⟨_, reached, spelled.symm.trans named⟩)

theorem retain (listed : table.ListedBy entries) (wellFormed : table.WellFormed) (keep : Entry V → σ → Bool × σ)
    (state : σ) :
    (table.retain keep state).2.2.ListedBy (Forest.filterState keep (inSweptOrder entries) state).1 := by
  rw [listed.inSweptOrder_eq wellFormed, ← retain_eq_filterState]
  exact filter_toList (wellFormed.retain keep state)

theorem empty : (empty : Table V).ListedBy [] := fun path => (entriesAt_empty path).symm

theorem clear (table : Table V) : table.clear.2.ListedBy [] := fun path => (table.entriesAt_clear path).symm

theorem apply [DecidableEq V] (listed : table.ListedBy entries) (wellFormed : table.WellFormed) (change : Change V) :
    (table.apply change).ListedBy (change.applyTo entries) := by
  cases change with
  | addName name value => exact listed.add wellFormed.ordered _
  | addInterest interest value => exact listed.add wellFormed.ordered _
  | removeName name value =>
    refine listed.extractFirst wellFormed.ordered fun entry _ => ?_
    simp [← Name.components_inj, Bool.beq_eq_decide_eq]
  | removeInterest interest value =>
    refine listed.extractFirst wellFormed.ordered fun entry _ => ?_
    cases entry with
    | bare name held => simp [Entry.interest?]
    | interest asked held =>
      by_cases same : asked = interest
      · simp [Entry.interest?, Entry.name, same]
      · simp [Entry.interest?, same]
  | removeMatch target => exact listed.removeMatch wellFormed target
  | removeMatches target => exact listed.removeMatches wellFormed target
  | retain keep state => exact listed.retain wellFormed keep state
  | clear => exact .clear table

end ListedBy

theorem listedBy_made [DecidableEq V] (changes : List (Change V)) : (made changes).ListedBy (listed changes) := by
  have kept : ∀ {table : Table V} {entries : List (Entry V)}, table.Canonical → table.ListedBy entries →
      (changes.foldl Table.apply table).ListedBy (changes.foldl Change.applyTo entries) := by
    induction changes with
    | nil => exact fun _ => id
    | cons change rest ih =>
      exact fun canonical listed => ih (canonical.apply change) (listed.apply canonical.toWellFormed change)
  exact kept .empty .empty

/-! Queries. -/

namespace ListedBy

theorem filter_entriesAt (listed : table.ListedBy entries) (wellFormed : table.WellFormed) (test : Entry V → Bool)
    (beginning path : List Component) :
    ((table.entriesAt beginning).filter test).filter (·.name.components = path)
      = if beginning = path then (entries.filter test).filter (·.name.components = path) else [] := by
  have named : ∀ entry ∈ (table.entriesAt beginning).filter test, entry.name.components = beginning :=
    fun entry member => wellFormed.filed (List.mem_filter.mp member).1
  split
  · rename_i same
    subst same
    rw [listed.filter_filter]
    exact List.filter_eq_self.mpr fun entry member => decide_eq_true (named entry member)
  · rename_i apart
    exact List.filter_eq_nil_iff.mpr fun entry member => by simpa [named entry member] using apart

-- The entries at all beginnings of a path are sorted, and those of one name
-- stand together.
theorem flatMap_inits (listed : table.ListedBy entries) (wellFormed : table.WellFormed) {test : Entry V → Bool}
    {path : List Component} (within : ∀ entry ∈ entries, test entry = true → entry.name.components <+: path) :
    (path.inits.flatMap fun beginning => (table.entriesAt beginning).filter test) = shorterFirst (entries.filter test) := by
  have named {beginning : List Component} {entry : Entry V}
      (member : entry ∈ (table.entriesAt beginning).filter test) : entry.name.components = beginning :=
    wellFormed.filed (List.mem_filter.mp member).1
  refine (mergeSort_eq_of_filter_eq (·.name.components) ?_ ?_ ?_ ?_ ?_ ?_).symm
  · simp only [decide_eq_true_eq]
    exact fun _ _ _ => Nat.le_trans
  · simp only [Bool.or_eq_true, decide_eq_true_eq]
    exact fun _ _ => Nat.le_total _ _
  · intro entry other same
    exact decide_eq_true (Nat.le_of_eq (congrArg List.length same))
  · rw [List.pairwise_flatMap]
    constructor
    · intro beginning _
      refine List.pairwise_of_forall_mem_list fun entry member other otherMember => decide_eq_true ?_
      rw [Name.length, Name.length, named member, named otherMember]
    · refine (pairwise_length_inits path).imp fun {shorter longer} less entry member other otherMember => ?_
      apply decide_eq_true
      rw [Name.length, Name.length, named member, named otherMember]
      exact Nat.le_of_lt less
  · intro entry member other otherMember below above
    obtain ⟨stored, passes⟩ := List.mem_filter.mp member
    obtain ⟨otherStored, otherPasses⟩ := List.mem_filter.mp otherMember
    have lengths := Nat.le_antisymm (of_decide_eq_true below) (of_decide_eq_true above)
    have begins := within entry stored passes
    have otherBegins := within other otherStored otherPasses
    exact (List.prefix_of_prefix_length_le begins otherBegins lengths.le).eq_of_length lengths
  · intro name
    rw [List.filter_flatMap]
    simp only [listed.filter_entriesAt wellFormed test]
    by_cases begins : name <+: path
    · have single : path.inits.Nodup := (pairwise_length_inits path).imp fun less same => less.ne (congrArg _ same)
      exact (flatMap_ite_eq ((List.mem_inits _ _).mpr begins) single _).symm
    · have nothing : (entries.filter test).filter (·.name.components = name) = [] := by
        refine List.filter_eq_nil_iff.mpr fun entry member spelled => begins ?_
        obtain ⟨stored, passes⟩ := List.mem_filter.mp member
        exact of_decide_eq_true spelled ▸ within entry stored passes
      simp [nothing]

theorem allMatches_eq (listed : table.ListedBy entries) (wellFormed : table.WellFormed) (target : Target) :
    table.allMatches target = shorterFirst (entries.filter (·.matchesTarget target)) := by
  rw [allMatches, flatMap_along rfl]
  exact listed.flatMap_inits wellFormed fun entry _ => Entry.prefix_path_of_matchesTarget

theorem nameMatches_eq (listed : table.ListedBy entries) (wellFormed : table.WellFormed) (name : Name) :
    table.nameMatches name = shorterFirst (entries.filter (·.name.isPrefixOf name)) := by
  rw [nameMatches, ← List.flatMap_id, flatMap_along rfl,
    ← listed.flatMap_inits wellFormed fun entry _ => Name.isPrefixOf_iff.mp]
  refine List.flatMap_congr fun beginning member => ?_
  refine (List.filter_eq_self.mpr fun entry found => ?_).symm
  exact Name.isPrefixOf_iff.mpr (wellFormed.filed found ▸ (List.mem_inits _ _).mp member)

theorem match?_eq_find? (listed : table.ListedBy entries) (wellFormed : table.WellFormed) (target : Target) :
    table.match? target = entries.find? (·.isLongest entries target) := by
  rw [match?_eq]
  cases deepest : (table.matchDepths target).getLast? with
  | none =>
    refine (List.find?_eq_none.mpr fun entry member => ?_).symm
    simp [Entry.isLongest, listed.unmatched deepest member]
  | some depth =>
    rw [List.find?_congr fun entry => listed.isLongest_eq wellFormed deepest, Option.bind_some, ← listed,
      List.find?_filter]
    simp

theorem match?_eq_none_iff (listed : table.ListedBy entries) (wellFormed : table.WellFormed) (target : Target) :
    table.match? target = none ↔ entries.filter (·.matchesTarget target) = [] := by
  rw [List.filter_eq_nil_iff, match?_eq]
  cases deepest : (table.matchDepths target).getLast? with
  | none => simpa using fun entry => listed.unmatched deepest
  | some depth =>
    obtain ⟨-, entry, found, matched⟩ := mem_matchDepths_iff.mp (List.mem_of_getLast? deepest)
    have named := wellFormed.filed found
    constructor
    · intro nothing
      exact absurd matched (List.find?_eq_none.mp nothing entry found)
    · intro none
      exact absurd matched (none entry (listed.mem_iff.mpr (named.symm ▸ found)))

end ListedBy

/-- Queries along one path find what tests of all entries find. However a table
was changed, the plain list with the same changes holds its entries. All
matching entries, by the lengths of their names and in the order they came, are
the answer to one query. Of those with the longest name the one that came first
answers another, unless nothing matches. Entries of both kinds under a beginning
of a name answer the third. -/
theorem queries_test_all_entries [DecidableEq V] (changes : List (Change V)) (target : Target) (name : Name) :
    let table := made changes
    let entries := listed changes
    table.toList.Perm entries ∧
    table.allMatches target = shorterFirst (entries.filter (·.matchesTarget target)) ∧
    table.match? target = entries.find? (·.isLongest entries target) ∧
    (table.match? target = none ↔ entries.filter (·.matchesTarget target) = []) ∧
    table.nameMatches name = shorterFirst (entries.filter (·.name.isPrefixOf name)) := by
  intro table entries
  have wellFormed : table.WellFormed := (canonical_made changes).toWellFormed
  have listed : table.ListedBy entries := listedBy_made changes
  exact ⟨listed.perm wellFormed, listed.allMatches_eq wellFormed target, listed.match?_eq_find? wellFormed target,
    listed.match?_eq_none_iff wellFormed target, listed.nameMatches_eq wellFormed name⟩

end Table

end NamedContent
