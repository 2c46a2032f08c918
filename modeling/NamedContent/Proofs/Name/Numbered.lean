import NamedContent.Name.Numbered
import NamedContent.Proofs.Bytes.Order
import NamedContent.Proofs.Name.Prefix

/-! Numbered components as a code: every number has one component of each kind,
components of one kind are ordered as their numbers are, and a name that ends in
one is taken apart in one way. All other components carry no number, so the version
of a name is the one stamped innermost. -/

set_option autoImplicit false

namespace NamedContent

namespace Component

theorem number?_eq_some_iff {numbering : Numbering} {component : Component} {number : UInt64} :
    component.number? numbering = some number ↔ component = numbered numbering number := by
  constructor
  · intro read
    obtain ⟨bytes⟩ := component
    cases bytes with
    | nil => simp [number?] at read
    | cons marker digits =>
      simp only [number?, Option.ite_none_right_eq_some, Option.some.injEq] at read
      obtain ⟨⟨rfl, width⟩, rfl⟩ := read
      have fits : Bytes.fromBigEndian digits < 2 ^ 64 := by
        have bound := Bytes.fromBigEndian_lt digits
        rw [width] at bound
        exact bound
      have written : Bytes.bigEndian 8 (Bytes.fromBigEndian digits) = digits :=
        width ▸ Bytes.bigEndian_fromBigEndian digits
      rw [numbered, UInt64.toNat_ofNat', Nat.mod_eq_of_lt fits, written]
  · rintro rfl
    have fits : number.toNat < 256 ^ 8 := number.toNat_lt
    simp [number?, numbered, Bytes.fromBigEndian_bigEndian_of_lt fits]

theorem numbered_lt_numbered {numbering : Numbering} {first second : UInt64} :
    numbered numbering first < numbered numbering second ↔ first < second := by
  refine lt_iff_lt_of_rising (numbered numbering) fun {low high} less => ?_
  have digits : Bytes.bigEndian 8 low.toNat < Bytes.bigEndian 8 high.toNat :=
    Bytes.bigEndian_lt_bigEndian (UInt64.lt_iff_toNat_lt.mp less) high.toNat_lt
  exact List.cons_lt_cons_iff.mpr (Or.inr ⟨rfl, digits⟩)

theorem number?_eq_none_iff {numbering : Numbering} {component : Component} :
    component.number? numbering = none ↔
      component.bytes.length ≠ 9 ∨ component.bytes.head? ≠ some numbering.marker := by
  obtain ⟨bytes⟩ := component
  cases bytes with
  | nil => simp [number?]
  | cons marker digits => simp [number?, or_iff_not_imp_right]

@[simp] theorem segment?_segment (number : UInt64) : (segment number).segment? = some number :=
  number?_eq_some_iff.mpr rfl

theorem segment?_eq_some_iff {component : Component} {number : UInt64} :
    component.segment? = some number ↔ component = segment number :=
  number?_eq_some_iff

theorem numbered_inj {numbering other : Numbering} {first second : UInt64} :
    numbered numbering first = numbered other second ↔ numbering = other ∧ first = second := by
  constructor
  · intro same
    have marks : numbering.marker = other.marker := (List.cons.inj (congrArg bytes same)).1
    have kinds : numbering = other := by cases numbering <;> cases other <;> first | rfl | exact absurd marks (by decide)
    subst kinds
    exact ⟨rfl, Option.some.inj ((number?_eq_some_iff.mpr rfl).symm.trans (number?_eq_some_iff.mpr same))⟩
  · rintro ⟨rfl, rfl⟩
    rfl

theorem compare_numbered (numbering : Numbering) (first second : UInt64) :
    compareOfLessAndEq (numbered numbering first) (numbered numbering second) = compare first second := by
  have unfolded : compare first second = compareOfLessAndEq first second := rfl
  simp only [unfolded, compareOfLessAndEq, numbered_lt_numbered, numbered_inj, true_and]

theorem number?_eq_none_or_of_ne {numbering other : Numbering} (apart : numbering ≠ other) (component : Component) :
    component.number? numbering = none ∨ component.number? other = none := by
  cases read : component.number? numbering with
  | none => exact Or.inl rfl
  | some number =>
    refine Or.inr (Option.eq_none_iff_forall_ne_some.mpr fun second also => ?_)
    have same := (number?_eq_some_iff.mp read).symm.trans (number?_eq_some_iff.mp also)
    exact apart (numbered_inj.mp same).1

theorem segment_inj {first second : UInt64} : segment first = segment second ↔ first = second :=
  numbered_inj.trans (and_iff_right rfl)

theorem version_inj {first second : Timestamp} : version first = version second ↔ first = second := by
  cases first
  cases second
  simp [version, numbered_inj]

theorem version_ne_segment (stamp : Timestamp) (number : UInt64) : version stamp ≠ segment number := by
  simp [version, segment, numbered_inj]

theorem segment_lt_segment {first second : UInt64} : segment first < segment second ↔ first < second :=
  numbered_lt_numbered

end Component

namespace Name

@[simp] theorem length_segment (stream : Name) (number : UInt64) :
    (stream.segment number).length = stream.length + 1 :=
  length_child _ _

@[simp] theorem last?_segment (stream : Name) (number : UInt64) :
    (stream.segment number).last? = some (.segment number) :=
  last?_child _ _

@[simp] theorem segment?_segment (stream : Name) (number : UInt64) :
    (stream.segment number).segment? = some number := by
  simp [segment?]

theorem isPrefixOf_segment (stream : Name) (number : UInt64) : stream.isPrefixOf (stream.segment number) = true :=
  isPrefixOf_child _ _

theorem segment_inj {first second : Name} {number other : UInt64} :
    first.segment number = second.segment other ↔ first = second ∧ number = other := by
  constructor
  · intro same
    obtain ⟨names, components⟩ := child_inj.mp same
    exact ⟨names, Component.segment_inj.mp components⟩
  · rintro ⟨rfl, rfl⟩
    rfl

theorem segment_lt_segment {stream : Name} {first second : UInt64} (less : first < second) :
    stream.segment first < stream.segment second :=
  child_lt_child (Component.segment_lt_segment.mpr less)

theorem version_inj {first second : Name} {stamp other : Timestamp} :
    first.version stamp = second.version other ↔ first = second ∧ stamp = other := by
  rw [version, version, child_inj, Component.version_inj]

theorem splitSegment?_eq_some_iff {name stream : Name} {number : UInt64} :
    name.splitSegment? = some (stream, number) ↔ name = stream.segment number := by
  constructor
  · intro split
    unfold splitSegment? at split
    split at split
    · rename_i found parent numbered parented
      obtain ⟨component, last, read⟩ := Option.bind_eq_some_iff.mp numbered
      obtain ⟨rest, rfl⟩ := last?_eq_some_iff.mp last
      rw [parent?_child, Option.some.injEq] at parented
      simp only [Option.some.injEq, Prod.mk.injEq] at split
      obtain ⟨rfl, rfl⟩ := split
      rw [Component.segment?_eq_some_iff.mp read, parented, segment]
    · exact absurd split (by simp)
  · rintro rfl
    simp [splitSegment?, segment, segment?]

def numberIn? (name stream : Name) : Option UInt64 :=
  match name.splitSegment? with
  | some (held, number) => if held = stream then some number else none
  | none => none

theorem numberIn?_eq_some_iff {name stream : Name} {number : UInt64} :
    name.numberIn? stream = some number ↔ name = stream.segment number := by
  rw [← splitSegment?_eq_some_iff]
  unfold numberIn?
  split
  · rename_i held other split
    rw [split]
    simp
  · rename_i split
    simp [split]

-- The search starts at the end of the name, so what follows the version it finds carries none.
theorem version?_eq_some_iff {name : Name} {stamp : Timestamp} :
    name.version? = some stamp ↔ ∃ (outer : Name) (inner : List Component),
      (∀ component ∈ inner, component.number? .version = none) ∧ name = (outer.version stamp).append inner := by
  rw [version?, Option.map_eq_some_iff]
  constructor
  · rintro ⟨number, found, rfl⟩
    obtain ⟨inner, component, outer, split, read, unread⟩ := List.findSome?_eq_some_iff.mp found
    rw [List.reverse_eq_iff, Component.number?_eq_some_iff.mp read] at split
    refine ⟨⟨outer.reverse⟩, inner.reverse, by simpa using unread, ?_⟩
    rw [← components_inj, split]
    simp [append, version, child, Component.version]
  · rintro ⟨outer, inner, unread, rfl⟩
    refine ⟨stamp.ms, List.findSome?_eq_some_iff.mpr ?_, rfl⟩
    refine ⟨inner.reverse, .version stamp, outer.components.reverse, ?_, ?_, by simpa using unread⟩
    · simp [append, version, child]
    · exact Component.number?_eq_some_iff.mpr rfl

/-- Numbers written into names keep their order and are read back. Segments of one
name compare as their numbers do, and versions of one name as their times. A name is
split into a stream and a number exactly if it is that segment of the stream. A
component has a number exactly if it is the one written for the number, none exactly
if it has not nine bytes or begins with another marker, and never one of each
kind. The version of a name is the one behind which no component carries another. -/
theorem numbers_keep_order_and_read_back :
    (∀ (name : Name) (first second : UInt64),
      compareOfLessAndEq (name.segment first) (name.segment second) = compare first second) ∧
    (∀ (name : Name) (first second : Timestamp),
      compareOfLessAndEq (name.version first) (name.version second) = compare first.ms second.ms) ∧
    (∀ (name stream : Name) (number : UInt64),
      name.splitSegment? = some (stream, number) ↔ name = stream.segment number) ∧
    (∀ (component : Component) (numbering : Numbering) (number : UInt64),
      component.number? numbering = some number ↔ component = .numbered numbering number) ∧
    (∀ (component : Component) (numbering : Numbering),
      component.number? numbering = none ↔
        component.bytes.length ≠ 9 ∨ component.bytes.head? ≠ some numbering.marker) ∧
    (∀ component : Component, component.number? .segment = none ∨ component.number? .version = none) ∧
    (∀ (name : Name) (stamp : Timestamp),
      name.version? = some stamp ↔ ∃ (outer : Name) (inner : List Component),
        (∀ component ∈ inner, component.number? .version = none) ∧ name = (outer.version stamp).append inner) := by
  refine ⟨fun name first second => ?_, fun name first second => ?_, fun _ _ _ => splitSegment?_eq_some_iff,
    fun _ _ _ => Component.number?_eq_some_iff, fun _ _ => Component.number?_eq_none_iff,
    Component.number?_eq_none_or_of_ne (by decide), fun _ _ => version?_eq_some_iff⟩
  · exact (compare_child name _ _).trans (Component.compare_numbered .segment first second)
  · exact (compare_child name _ _).trans (Component.compare_numbered .version first.ms second.ms)

-- The number that needs one more byte comes later, as all bytes are always written.
example : root.segment 0xFF < root.segment 0x100 := by decide

end Name

end NamedContent
