import NamedContent.Flow.Selection
import NamedContent.Proofs.Interest.Matching
import NamedContent.Proofs.Name.Numbered
import NamedContent.Proofs.NameIndex.Members
import NamedContent.Proofs.Table.View
import NamedContent.Word

/-! What the two searches find and what it means that they find nothing.

Either search considers every match there is, so it comes back empty only if
the segment order holds all of them back. -/

set_option autoImplicit false

namespace NamedContent

namespace Candidate

theorem best?_cons_cons (first second : Candidate) (rest : List Candidate) :
    best? (first :: second :: rest) = best? ((if first.yieldsTo second then second else first) :: rest) := by
  simp only [best?, List.foldl_cons]
  split <;> rfl

theorem best?_cons (first : Candidate) (rest : List Candidate) :
    ∃ chosen ∈ first :: rest, best? (first :: rest) = some chosen := by
  induction rest generalizing first with
  | nil => exact ⟨first, List.mem_cons_self, rfl⟩
  | cons second rest ih =>
    rw [best?_cons_cons]
    obtain ⟨chosen, found, best⟩ := ih (if first.yieldsTo second then second else first)
    refine ⟨chosen, ?_, best⟩
    rcases List.mem_cons.mp found with rfl | later
    · split <;> simp
    · exact List.mem_cons_of_mem _ (List.mem_cons_of_mem _ later)

theorem mem_of_best? {candidates : List Candidate} {chosen : Candidate} (best : best? candidates = some chosen) :
    chosen ∈ candidates := by
  cases candidates with
  | nil => exact absurd best (by simp [best?])
  | cons first rest =>
    obtain ⟨other, found, same⟩ := best?_cons first rest
    obtain rfl := Option.some.inj (best.symm.trans same)
    exact found

theorem best?_eq_none {candidates : List Candidate} (nothing : best? candidates = none) : candidates = [] := by
  cases candidates with
  | nil => rfl
  | cons first rest =>
    obtain ⟨other, -, best⟩ := best?_cons first rest
    exact absurd (nothing.symm.trans best) (by simp)

theorem yieldsTo_iff {first second : Candidate} :
    first.yieldsTo second = true ↔
      first.interest.name.length < second.interest.name.length ∨
        first.interest.name.length = second.interest.name.length ∧
          (positionBefore first.position? second.position? = true ∨
            first.position? = second.position? ∧ second.pending.seq ≤ first.pending.seq) := by
  simp [yieldsTo]

theorem best?_map {change : Candidate → Candidate} {candidates : List Candidate}
    (agree : ∀ first ∈ candidates, ∀ second ∈ candidates,
      (change first).yieldsTo (change second) = first.yieldsTo second) :
    best? (candidates.map change) = (best? candidates).map change := by
  cases candidates with
  | nil => rfl
  | cons first rest =>
    induction rest generalizing first with
    | nil => rfl
    | cons second rest ih =>
      have same := agree first List.mem_cons_self second (List.mem_cons_of_mem _ List.mem_cons_self)
      have winner : (if (change first).yieldsTo (change second) then change second else change first)
          = change (if first.yieldsTo second then second else first) := by
        rw [same]
        split <;> rfl
      have among : ∀ one ∈ (if first.yieldsTo second then second else first) :: rest,
          one ∈ first :: second :: rest := by
        intro one member
        rcases List.mem_cons.mp member with rfl | later
        · split <;> simp
        · exact List.mem_cons_of_mem _ (List.mem_cons_of_mem _ later)
      rw [best?_cons_cons, List.map_cons, List.map_cons, best?_cons_cons, winner, ← List.map_cons]
      exact ih _ fun one oneIn two twoIn => agree one (among one oneIn) two (among two twoIn)

end Candidate

namespace Flow

variable {τ : Type} {flow : Flow τ} {interest : Interest} {object : ContentObject}

/-- The greatest number that a next interest on a stream may have. -/
def reach (flow : Flow τ) (stream : Name) (reference : UInt64) : Nat :=
  (match flow.lowWater? stream with
    | some delivered => max reference delivered
    | none => reference).toNat + 1

theorem lt_reach (flow : Flow τ) (stream : Name) (reference : UInt64) :
    reference.toNat < flow.reach stream reference := by
  unfold reach
  split
  · rw [Word.toNat_max]
    omega
  · exact Nat.lt_succ_self _

-- The order holds back exactly the children of a stream that lie beyond the
-- reach of a next interest on it.
theorem inOrder_eq_false_iff {name : Name} :
    flow.inOrder interest name = false ↔
      flow.config.strictSegmentOrder = true ∧ interest.selector = some .next ∧
        name.length = interest.name.length + 1 ∧
        ∃ reference number, interest.reference? = some (.segment reference) ∧
          name.last? = some (.segment number) ∧ flow.reach interest.name reference < number.toNat := by
  unfold inOrder
  split
  · rename_i ruled
    simp only [Bool.and_eq_true, beq_iff_eq] at ruled
    obtain ⟨⟨strict, next⟩, longer⟩ := ruled
    split
    · rename_i reference number referenceRead numberRead
      obtain ⟨component, refers, read⟩ := Option.bind_eq_some_iff.mp referenceRead
      obtain rfl := Component.segment?_eq_some_iff.mp read
      obtain ⟨component, ends, read⟩ := Option.bind_eq_some_iff.mp numberRead
      obtain rfl := Component.segment?_eq_some_iff.mp read
      rw [decide_eq_false_iff_not, Word.le_add_one_iff]
      change ¬ number.toNat ≤ flow.reach interest.name reference ↔ _
      constructor
      · intro beyond
        exact ⟨strict, next, longer, reference, number, refers, ends, Nat.not_le.mp beyond⟩
      · rintro ⟨-, -, -, other, held, otherRefers, otherEnds, beyond⟩
        rw [refers, Option.some.injEq, Component.segment_inj] at otherRefers
        rw [ends, Option.some.injEq, Component.segment_inj] at otherEnds
        subst otherRefers otherEnds
        exact Nat.not_le.mpr beyond
    · rename_i unread
      simp only [Bool.true_eq_false, false_iff]
      rintro ⟨-, -, -, reference, number, refers, ends, -⟩
      exact unread reference number (by simp [refers]) (by simp [Name.segment?, ends])
  · rename_i unruled
    simp only [Bool.true_eq_false, false_iff]
    rintro ⟨strict, next, longer, -⟩
    exact unruled (by simp [strict, next, longer])

theorem inOrder_of_selector {name : Name} (free : interest.selector ≠ some .next) : flow.inOrder interest name = true := by
  rw [← Bool.not_eq_false]
  exact fun held => free (inOrder_eq_false_iff.mp held).2.1

-- The order has no say over an object whose full name is spelled out.
theorem inOrder_of_fullName (flow : Flow τ) (named : object.fullName = interest.name) :
    flow.inOrder interest object.name = true := by
  have shorter : (object.name.length == interest.name.length + 1) = false := by
    rw [← named, ContentObject.fullName, Name.length_child, beq_eq_false_iff_ne]
    omega
  simp [inOrder, shorter]

theorem inOrder_ofName (flow : Flow τ) (name other : Name) : flow.inOrder (.ofName name) other = true :=
  inOrder_of_selector (by simp [Interest.ofName])

theorem mayHave_iff :
    flow.mayHave interest object = true ↔
      interest.matchesObject object = true ∧ flow.inOrder interest object.name = true := by
  simp [mayHave]

theorem mem_waiting_iff (wellFormed : flow.pending.WellFormed) {candidate : Candidate} :
    candidate ∈ flow.waiting object ↔
      Entry.interest candidate.interest candidate.pending ∈ flow.pending.toList ∧
        flow.mayHave candidate.interest object = true := by
  have listed : ∀ entry : Entry Pending,
      entry.candidate? = some candidate ↔ entry = .interest candidate.interest candidate.pending := by
    intro entry
    cases entry with
    | bare name value => simp [Entry.candidate?]
    | interest asked value =>
      obtain ⟨interest, pending⟩ := candidate
      simp [Entry.candidate?]
  simp only [waiting, List.mem_filter, List.mem_filterMap, listed, Table.mem_allMatches_iff wellFormed,
    mayHave_iff]
  constructor
  · rintro ⟨⟨entry, ⟨waits, matched⟩, rfl⟩, ordered⟩
    exact ⟨waits, matched, ordered⟩
  · intro ⟨waits, matched, ordered⟩
    exact ⟨⟨_, ⟨waits, matched⟩, rfl⟩, ordered⟩

theorem waiting_of_bestPending? (wellFormed : flow.pending.WellFormed) {candidate : Candidate}
    (best : flow.bestPending? object = some candidate) :
    Entry.interest candidate.interest candidate.pending ∈ flow.pending.toList ∧
      flow.mayHave candidate.interest object = true :=
  (mem_waiting_iff wellFormed).mp (Candidate.mem_of_best? best)

theorem inOrder_eq_false_of_bestPending? (wellFormed : flow.pending.WellFormed)
    (nothing : flow.bestPending? object = none) {pending : Pending}
    (waits : Entry.interest interest pending ∈ flow.pending.toList)
    (matched : interest.matchesObject object = true) : flow.inOrder interest object.name = false := by
  cases ordered : flow.inOrder interest object.name with
  | false => rfl
  | true =>
    have found : ⟨interest, pending⟩ ∈ flow.waiting object :=
      (mem_waiting_iff wellFormed).mpr ⟨waits, mayHave_iff.mpr ⟨matched, ordered⟩⟩
    rw [Candidate.best?_eq_none nothing] at found
    exact absurd found List.not_mem_nil

theorem bestPending?_eq_none_iff (wellFormed : flow.pending.WellFormed) :
    flow.bestPending? object = none ↔ ∀ interest pending, Entry.interest interest pending ∈ flow.pending.toList →
      interest.matchesObject object = true → flow.inOrder interest object.name = false := by
  constructor
  · intro nothing interest pending waits matched
    exact inOrder_eq_false_of_bestPending? wellFormed nothing waits matched
  · intro late
    have nobody : flow.waiting object = [] := by
      refine List.eq_nil_iff_forall_not_mem.mpr fun candidate found => ?_
      obtain ⟨waits, allowed⟩ := (mem_waiting_iff wellFormed).mp found
      obtain ⟨matched, ordered⟩ := mayHave_iff.mp allowed
      exact absurd ((late _ _ waits matched).symm.trans ordered) (by simp)
    rw [bestPending?, nobody]
    rfl

def choices (flow : Flow τ) (interest : Interest) : Set ContentObject :=
  {object | object ∈ flow.buffer.values ∧ interest.name.isPrefixOf object.name = true ∧
    interest.matchesObject object = true ∧ flow.inOrder interest object.name = true}

/-- The choice with the smallest name, or with the greatest if the last is asked for. -/
structure Preferred (flow : Flow τ) (interest : Interest) (object : ContentObject) : Prop where
  choice : object ∈ flow.choices interest
  smallest : interest.selector ≠ some .last → ∀ other ∈ flow.choices interest, object.name ≤ other.name
  greatest : interest.selector = some .last → ∀ other ∈ flow.choices interest, other.name ≤ object.name

structure Spelled (flow : Flow τ) (interest : Interest) (object : ContentObject) : Prop where
  stored : object ∈ flow.buffer.values
  named : object.fullName = interest.name
  published : interest.matchesPublisher object.target = true

/-! The two parts of the search. -/

def scanned? (flow : Flow τ) (interest : Interest) : Option ContentObject :=
  match interest.selector with
  | some .last => (flow.buffer.under interest.name).reverse.find? (flow.mayHave interest)
  | _ => (flow.buffer.under interest.name).find? (flow.mayHave interest)

def spelled? (flow : Flow τ) (interest : Interest) : Option ContentObject :=
  (interest.name.parent?.bind flow.buffer.find?).filter interest.matchesObject

theorem bestBuffered?_eq (flow : Flow τ) (interest : Interest) :
    flow.bestBuffered? interest = (flow.scanned? interest).or (flow.spelled? interest) := by
  unfold bestBuffered?
  simp only
  split
  · rename_i object ranked
    have found : flow.scanned? interest = some object := ranked
    rw [found, Option.some_or]
  · rename_i ranked
    have nothing : flow.scanned? interest = none := ranked
    rw [nothing, Option.none_or, spelled?]
    cases interest.name.parent?.bind flow.buffer.find? with
    | none => rfl
    | some object => rw [Option.filter_some]

theorem mem_choices_iff :
    object ∈ flow.choices interest ↔ object ∈ flow.buffer.under interest.name ∧ flow.mayHave interest object = true := by
  rw [NameIndex.mem_under_iff, mayHave_iff, and_assoc]
  rfl

theorem scanned?_eq_some_iff : flow.scanned? interest = some object ↔ flow.Preferred interest object := by
  have ascending := flow.buffer.ascending_under interest.name
  unfold scanned?
  split
  · rename_i last
    rw [ascending.find?_reverse_eq_some_iff]
    constructor
    · rintro ⟨found, allowed, greatest⟩
      refine ⟨mem_choices_iff.mpr ⟨found, allowed⟩, absurd last, fun _ other choice => ?_⟩
      obtain ⟨listed, passes⟩ := mem_choices_iff.mp choice
      exact greatest other listed passes
    · intro preferred
      obtain ⟨found, allowed⟩ := mem_choices_iff.mp preferred.choice
      refine ⟨found, allowed, fun other listed passes => ?_⟩
      exact preferred.greatest last other (mem_choices_iff.mpr ⟨listed, passes⟩)
  · rename_i notLast
    rw [ascending.find?_eq_some_iff]
    constructor
    · rintro ⟨found, allowed, smallest⟩
      refine ⟨mem_choices_iff.mpr ⟨found, allowed⟩, fun _ other choice => ?_, fun last => absurd last notLast⟩
      obtain ⟨listed, passes⟩ := mem_choices_iff.mp choice
      exact smallest other listed passes
    · intro preferred
      obtain ⟨found, allowed⟩ := mem_choices_iff.mp preferred.choice
      refine ⟨found, allowed, fun other listed passes => ?_⟩
      exact preferred.smallest notLast other (mem_choices_iff.mpr ⟨listed, passes⟩)

theorem scanned?_eq_none_iff : flow.scanned? interest = none ↔ flow.choices interest = ∅ := by
  rw [Set.eq_empty_iff_forall_notMem]
  simp only [mem_choices_iff, not_and]
  unfold scanned?
  split <;> simp

-- The parent of the interest's name is the only place where the object can be.
theorem spelled?_eq_some_iff : flow.spelled? interest = some object ↔ flow.Spelled interest object := by
  rw [spelled?, Option.filter_eq_some_iff, Option.bind_eq_some_iff]
  constructor
  · rintro ⟨⟨parent, parented, found⟩, matched⟩
    obtain ⟨component, spelled⟩ := Name.parent?_eq_some_iff.mp parented
    obtain ⟨stored, rfl⟩ := NameIndex.find?_eq_some_iff.mp found
    have longer : ¬ interest.name.length ≤ object.name.length := by
      rw [spelled, Name.length_child]
      omega
    have named : interest.name = object.fullName := (Interest.matchesObject_cases matched).resolve_right
      fun ⟨begins, _⟩ => longer (Name.length_le_of_isPrefixOf begins)
    exact ⟨stored, named.symm, Interest.matchesObject_of_fullName named.symm ▸ matched⟩
  · rintro ⟨stored, named, published⟩
    refine ⟨⟨object.name, ?_, NameIndex.find?_eq_some_iff.mpr ⟨stored, rfl⟩⟩, ?_⟩
    · rw [← named, ContentObject.fullName, Name.parent?_child]
    · rw [Interest.matchesObject_of_fullName named, published]

-- The full name counts only where nothing under it may be had.
theorem bestBuffered?_eq_some_iff :
    flow.bestBuffered? interest = some object ↔
      flow.Preferred interest object ∨ flow.choices interest = ∅ ∧ flow.Spelled interest object := by
  rw [bestBuffered?_eq, Option.or_eq_some_iff, scanned?_eq_some_iff, scanned?_eq_none_iff, spelled?_eq_some_iff]

-- What the buffer answers is stored and matches. Either the interest spells
-- out its full name, or it is in order and first of its kind under the interest's
-- name, unless the last is asked for.
theorem bestBuffered?_cases (best : flow.bestBuffered? interest = some object) :
    object ∈ flow.buffer.values ∧ interest.matchesObject object = true ∧
      (interest.name = object.fullName ∨
        flow.inOrder interest object.name = true ∧
          (interest.selector ≠ some .last → ∀ other ∈ flow.buffer.values,
            interest.name.isPrefixOf other.name = true → flow.mayHave interest other = true →
            object.name ≤ other.name)) := by
  rcases bestBuffered?_eq_some_iff.mp best with preferred | ⟨-, spelled⟩
  · obtain ⟨stored, -, matched, ordered⟩ := preferred.choice
    refine ⟨stored, matched, Or.inr ⟨ordered, fun notLast other otherStored within allowed => ?_⟩⟩
    exact preferred.smallest notLast other ⟨otherStored, within, mayHave_iff.mp allowed⟩
  · refine ⟨spelled.stored, ?_, Or.inl spelled.named.symm⟩
    rw [Interest.matchesObject_of_fullName spelled.named, spelled.published]

theorem mayHave_of_bestBuffered? (best : flow.bestBuffered? interest = some object) :
    flow.mayHave interest object = true := by
  obtain ⟨-, matched, full | ⟨ordered, -⟩⟩ := bestBuffered?_cases best
  · exact mayHave_iff.mpr ⟨matched, flow.inOrder_of_fullName full.symm⟩
  · exact mayHave_iff.mpr ⟨matched, ordered⟩

theorem inOrder_eq_false_of_bestBuffered? (nothing : flow.bestBuffered? interest = none)
    (stored : object ∈ flow.buffer.values) (matched : interest.matchesObject object = true) :
    flow.inOrder interest object.name = false := by
  rw [bestBuffered?_eq, Option.or_eq_none_iff, scanned?_eq_none_iff] at nothing
  rcases Interest.matchesObject_cases matched with full | ⟨begins, -⟩
  · have published := (Interest.matchesObject_of_fullName full.symm).symm.trans matched
    have found := spelled?_eq_some_iff.mpr ⟨stored, full.symm, published⟩
    exact absurd (nothing.2.symm.trans found) (by simp)
  · rw [← Bool.not_eq_true]
    intro ordered
    have choice : object ∈ flow.choices interest := ⟨stored, begins, matched, ordered⟩
    rw [nothing.1] at choice
    exact choice

theorem bestBuffered?_eq_none_iff :
    flow.bestBuffered? interest = none ↔
      ∀ object ∈ flow.buffer.values, interest.matchesObject object = true → flow.inOrder interest object.name = false := by
  constructor
  · intro nothing object stored matched
    exact inOrder_eq_false_of_bestBuffered? nothing stored matched
  · intro late
    refine Option.eq_none_iff_forall_ne_some.mpr fun object best => ?_
    obtain ⟨matched, ordered⟩ := mayHave_iff.mp (mayHave_of_bestBuffered? best)
    exact absurd ((late object (bestBuffered?_cases best).1 matched).symm.trans ordered) (by simp)

end Flow

end NamedContent
