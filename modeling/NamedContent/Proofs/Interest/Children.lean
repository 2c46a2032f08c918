import NamedContent.Proofs.Interest.Matching

/-! The children after a reference.

An interest in them takes every later child and all that lies under one. It takes
the name they are children of as well: only a component that follows a name can be
excluded, and behind that name stands none. -/

set_option autoImplicit false

namespace NamedContent

namespace Name

/-- A name at or under a child of the first `count` components of the reference,
of a child that comes after the reference's own. -/
structure LaterChild (reference : Name) (count : Nat) (candidate : Name) : Prop where
  longer : count < candidate.length
  begins : candidate.take count = reference.take count
  later : ∃ bound component, reference.component? count = some bound ∧
    candidate.component? count = some component ∧ bound < component

section Children
variable {reference candidate : Name} {count : Nat}

theorem length_take (within : count ≤ reference.length) : (reference.take count).length = count :=
  (length_take_eq reference count).trans (Nat.min_eq_left within)

theorem take_isPrefixOf_iff (within : count ≤ reference.length) :
    (reference.take count).isPrefixOf candidate = true ↔ candidate.take count = reference.take count := by
  have width : (reference.take count).components.length = count := length_take within
  rw [isPrefixOf_iff, List.prefix_iff_eq_take, width, ← components_inj]
  exact eq_comm

theorem component?_of_lt (within : count < reference.length) :
    ∃ component, reference.component? count = some component :=
  ⟨_, List.getElem?_eq_getElem within⟩

theorem take_take_self (reference : Name) (count : Nat) : (reference.take count).take count = reference.take count :=
  components_inj.mp (by rw [take, take, List.take_take, Nat.min_self])

theorem not_laterChild_take (within : count < reference.length) :
    ¬ reference.LaterChild count (reference.take count) := by
  intro child
  have longer := child.longer
  rw [length_take within.le] at longer
  exact absurd longer (Nat.lt_irrefl count)

-- What begins a candidate and is not followed there is the candidate.
theorem eq_take_of_component?_eq_none (begins : candidate.take count = reference.take count)
    (ends : candidate.component? count = none) : candidate = reference.take count := by
  have short : candidate.length ≤ count := List.getElem?_eq_none_iff.mp ends
  exact (take_of_length_le short).symm.trans begins

end Children

end Name

namespace Interest

section Children
variable {reference candidate : Name} {count : Nat}

theorem after_excludes_eq_false_iff {selector : Selector} (within : count < reference.length) :
    (after selector reference count).excludes candidate = false ↔
      ∀ bound component, reference.component? count = some bound →
        candidate.component? count = some component → bound < component := by
  obtain ⟨bound, following⟩ := Name.component?_of_lt within
  have width : (after selector reference count).name.length = count := Name.length_take within.le
  have excluded : (after selector reference count).exclude = some (.upTo bound) := by simp [after, following]
  simp only [excludes, excluded, width, following, Option.some.injEq]
  cases candidate.component? count with
  | none => simp
  | some component => simp [Exclude.contains, Exclude.upTo, Std.not_le]

theorem matchesTarget_after_iff {selector : Selector} {publisher : Option Publisher}
    (within : count < reference.length) :
    (after selector reference count).matchesTarget ⟨candidate, publisher, none⟩ = true ↔
      candidate = reference.take count ∨ reference.LaterChild count candidate := by
  have begins : (after selector reference count).name.isPrefixOf candidate = true ↔
      candidate.take count = reference.take count := Name.take_isPrefixOf_iff within.le
  have unbounded : (after selector reference count).fitsSuffix candidate = true := rfl
  have anyone : (after selector reference count).matchesPublisher ⟨candidate, publisher, none⟩ = true := rfl
  have undigested : (after selector reference count).namesDigest ⟨candidate, publisher, none⟩ = false := rfl
  simp only [matchesTarget, undigested, Bool.false_eq_true, if_false, Bool.and_eq_true, Bool.not_eq_true', begins,
    unbounded, anyone, and_true, after_excludes_eq_false_iff within]
  obtain ⟨bound, compared⟩ := Name.component?_of_lt within
  constructor
  · rintro ⟨same, allowed⟩
    cases following : candidate.component? count with
    | none => exact Or.inl (Name.eq_take_of_component?_eq_none same following)
    | some component =>
      have longer : count < candidate.length := (List.getElem?_eq_some_iff.mp following).1
      exact Or.inr ⟨longer, same, bound, component, compared, following, allowed bound component compared following⟩
  · rintro (rfl | child)
    · have ends : (reference.take count).component? count = none := by
        simp [Name.component?, Name.take]
      exact ⟨Name.take_take_self reference count, fun _ component _ following => by simp [ends] at following⟩
    · obtain ⟨low, high, lower, upper, less⟩ := child.later
      refine ⟨child.begins, fun first second one two => ?_⟩
      obtain rfl : low = first := Option.some.inj (lower.symm.trans one)
      obtain rfl : high = second := Option.some.inj (upper.symm.trans two)
      exact less

/-- With a reference component to come after, an interest in the next or the last
child matches the later children, and beside them the name whose children they are. -/
theorem children_after_match_iff (within : count < reference.length) (candidate : Name)
    (publisher : Option Publisher) :
    ((next reference count).matchesTarget ⟨candidate, publisher, none⟩ = true ↔
        candidate = reference.take count ∨ reference.LaterChild count candidate) ∧
      ((last reference count).matchesTarget ⟨candidate, publisher, none⟩ = true ↔
        candidate = reference.take count ∨ reference.LaterChild count candidate) ∧
      ¬ reference.LaterChild count (reference.take count) :=
  ⟨matchesTarget_after_iff within, matchesTarget_after_iff within, Name.not_laterChild_take within⟩

end Children

namespace Sample

def shelf : Name := .ofBytes [[0x73]]

def first : Name := shelf.child ⟨[0x61]⟩
def second : Name := shelf.child ⟨[0x62]⟩
def third : Name := shelf.child ⟨[0x63]⟩

end Sample

open Interest.Sample

theorem children_after_second :
    1 < second.length ∧
      (next second 1).matchesTarget ⟨third.child ⟨[0x78]⟩, none, none⟩ = true ∧
      second.LaterChild 1 (third.child ⟨[0x78]⟩) ∧
      (last second 1).matchesTarget ⟨first, none, none⟩ = false ∧ ¬ second.LaterChild 1 first := by
  have within : 1 < second.length := by decide
  have under := (children_after_match_iff within (third.child ⟨[0x78]⟩) none).1
  have before := (children_after_match_iff within first none).2.1
  have taken : (next second 1).matchesTarget ⟨third.child ⟨[0x78]⟩, none, none⟩ = true := by decide
  have left : (last second 1).matchesTarget ⟨first, none, none⟩ = false := by decide
  have beyond : third.child ⟨[0x78]⟩ ≠ second.take 1 := by decide
  refine ⟨within, taken, (under.mp taken).resolve_left beyond, left, fun child => ?_⟩
  exact absurd (left.symm.trans (before.mpr (Or.inr child))) (by decide)

-- The shelf is none of its own children, yet both interests take it.
theorem children_after_take_parent :
    1 < second.length ∧ ¬ second.LaterChild 1 shelf ∧
      (next second 1).matchesTarget ⟨shelf, none, none⟩ = true ∧
      (last second 1).matchesTarget ⟨shelf, none, none⟩ = true :=
  ⟨by decide, fun child => absurd child.longer (by decide), by decide, by decide⟩

end Interest

end NamedContent
