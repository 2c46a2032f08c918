import NamedContent.Interest.Basic
import NamedContent.Proofs.Name.Numbered

/-! What a match says about names.

An interest that matches an object either spells out the object's full name or
begins the object's name, and then no reference component reaches the next one. -/

set_option autoImplicit false

namespace NamedContent

namespace Interest

theorem namesDigest_iff {interest : Interest} {target : Target} {digest : Digest}
    (known : target.digest = some digest) :
    interest.namesDigest target = true ↔ interest.name = target.name.child ⟨digest.toList⟩ := by
  simp only [namesDigest, known, Bool.and_eq_true, beq_iff_eq]
  constructor
  · intro ⟨⟨longer, same⟩, last⟩
    obtain ⟨parent, spelled⟩ := Name.last?_eq_some_iff.mp last
    have width : parent.length = target.name.length := by
      rw [spelled, Name.length_child] at longer
      omega
    have within : ¬ (interest.name.length - 1 > interest.name.length ∧
        target.name.length ≠ interest.name.length) := by omega
    have common : min (min (interest.name.length - 1) interest.name.length) target.name.length
        = target.name.length := by omega
    simp only [Name.equalsUpTo, if_neg within, common, beq_iff_eq] at same
    have whole : parent.components = target.name.components := by
      rw [spelled, Name.child, Name.length, List.take_length, ← Name.length, ← width, Name.length,
        List.take_left] at same
      exact same
    obtain ⟨components⟩ := parent
    exact spelled.trans (congrArg (Name.child · _) (congrArg Name.mk whole))
  · intro spelled
    simp [spelled, Name.equalsUpTo, Name.child, Name.length, Name.last?]

theorem matchesTarget_cases {interest : Interest} {target : Target}
    (matched : interest.matchesTarget target = true) :
    (∃ digest, target.digest = some digest ∧ interest.name = target.name.child ⟨digest.toList⟩) ∨
      interest.name.isPrefixOf target.name = true ∧ interest.excludes target.name = false := by
  by_cases spelled : interest.namesDigest target = true
  · cases known : target.digest with
    | none => simp [namesDigest, known] at spelled
    | some digest => exact Or.inl ⟨digest, rfl, (namesDigest_iff known).mp spelled⟩
  · simp only [matchesTarget, if_neg spelled, Bool.and_eq_true, Bool.not_eq_true'] at matched
    exact Or.inr ⟨matched.1.1.1, matched.1.1.2⟩

theorem prefix_path_of_matchesTarget {interest : Interest} {target : Target}
    (matched : interest.matchesTarget target = true) : interest.name.components <+: target.path := by
  rcases matchesTarget_cases matched with ⟨digest, known, spelled⟩ | ⟨begins, -⟩
  · have whole : target.path = interest.name.components := by rw [Target.path, known, spelled, Name.child]
    exact whole ▸ List.prefix_rfl
  · have whole : target.name.components <+: target.path := by
      rw [Target.path]
      cases target.digest with
      | none => exact List.prefix_rfl
      | some digest => exact List.prefix_append _ _
    exact (Name.isPrefixOf_iff.mp begins).trans whole

theorem matchesObject_cases {interest : Interest} {object : ContentObject}
    (matched : interest.matchesObject object = true) :
    interest.name = object.fullName ∨
      interest.name.isPrefixOf object.name = true ∧ interest.excludes object.name = false := by
  rcases matchesTarget_cases matched with ⟨digest, known, spelled⟩ | begins
  · obtain rfl : object.digest = digest := Option.some.inj known
    exact Or.inl spelled
  · exact Or.inr begins

-- Of an object whose full name is spelled out only the publisher is asked.
theorem matchesObject_of_fullName {interest : Interest} {object : ContentObject}
    (spelled : object.fullName = interest.name) :
    interest.matchesObject object = interest.matchesPublisher object.target := by
  have named : interest.namesDigest object.target = true := (namesDigest_iff rfl).mpr spelled.symm
  rw [matchesObject, matchesTarget, if_pos named]

theorem isPrefixOf_of_matchesObject {interest : Interest} {object : ContentObject}
    (matched : interest.matchesObject object = true) (shorter : interest.name.length ≤ object.name.length) :
    interest.name.isPrefixOf object.name = true ∧ interest.excludes object.name = false := by
  rcases matchesObject_cases matched with spelled | begins
  · rw [spelled, ContentObject.fullName, Name.length_child] at shorter
    omega
  · exact begins

theorem reference_lt_of_matchesObject {interest : Interest} {object : ContentObject} {reference next : Component}
    (matched : interest.matchesObject object = true) (named : object.name = interest.name.child next)
    (refers : interest.reference? = some reference) : reference < next := by
  have shorter : interest.name.length ≤ object.name.length := by
    rw [named, Name.length_child]
    omega
  have kept := (isPrefixOf_of_matchesObject matched shorter).2
  have following : object.name.component? interest.name.length = some next := by
    simp [named, Name.component?, Name.child, Name.length]
  unfold reference? at refers
  split at refers
  · rename_i exclude selected excluded
    simp only [excludes, excluded, following, Exclude.contains, refers, Option.any_some,
      Bool.or_eq_false_iff, decide_eq_false_iff_not] at kept
    exact Std.not_le.mp kept.1
  · exact absurd refers (by simp)

theorem touches_name_of_matchesObject {interest : Interest} {object : ContentObject}
    (matched : interest.matchesObject object = true) : interest.name.touches object.name = true := by
  rw [Name.touches, Bool.or_eq_true]
  rcases matchesObject_cases matched with spelled | ⟨begins, -⟩
  · exact Or.inr (spelled ▸ Name.isPrefixOf_child _ _)
  · exact Or.inl begins

section Apart
variable {side other : Name} {interest : Interest} {object : ContentObject}

-- An interest on one side matches nothing on the other, not even by its full name.
theorem matchesObject_eq_false (apart : side.touches other = false) (asks : side.isPrefixOf interest.name = true)
    (lies : other.isPrefixOf object.name = true) : interest.matchesObject object = false := by
  rw [← Bool.not_eq_true]
  intro matched
  have whole : object.name.components <+: object.target.path := List.prefix_append _ _
  exact Name.not_prefix_of_apart apart ((Name.isPrefixOf_iff.mp asks).trans (prefix_path_of_matchesTarget matched))
    ((Name.isPrefixOf_iff.mp lies).trans whole)

theorem lies_of_matchesObject (apart : side.touches other = false) (matched : interest.matchesObject object = true)
    (asks : side.isPrefixOf interest.name = true)
    (lies : side.isPrefixOf object.name = true ∨ other.isPrefixOf object.name = true) :
    side.isPrefixOf object.name = true := by
  refine lies.resolve_right fun across => ?_
  exact absurd ((matchesObject_eq_false apart asks across).symm.trans matched) (by simp)

theorem asks_of_matchesObject (apart : side.touches other = false) (matched : interest.matchesObject object = true)
    (lies : side.isPrefixOf object.name = true)
    (asks : side.isPrefixOf interest.name = true ∨ other.isPrefixOf interest.name = true) :
    side.isPrefixOf interest.name = true := by
  refine asks.resolve_right fun across => ?_
  exact absurd ((matchesObject_eq_false (Name.touches_eq_false_comm apart) across lies).symm.trans matched) (by simp)

end Apart

theorem matchesObject_ofName {object : ContentObject} {name : Name} (begins : name.isPrefixOf object.name = true) :
    (ofName name).matchesObject object = true := by
  rw [matchesObject, matchesTarget]
  split
  · rfl
  · simpa [ContentObject.target, excludes, fitsSuffix, matchesPublisher, ofName] using begins

theorem next_segment (stream : Name) (reference : UInt64) :
    next (stream.segment reference) stream.length
      = { ofName stream with selector := some .next, exclude := some (.upTo (.segment reference)) } := by
  simp [next, after, ofName, Name.take, Name.component?, Name.segment, Name.child, Name.length]

-- A next interest on a stream matches every later segment, whatever it carries.
theorem matchesObject_next {object : ContentObject} {stream : Name} {reference number : UInt64}
    (named : object.name = stream.segment number) (above : reference < number) :
    (next (stream.segment reference) stream.length).matchesObject object = true := by
  have following : (stream.segment number).component? stream.length = some (.segment number) := by
    simp [Name.segment, Name.component?, Name.child, Name.length]
  have kept : ¬ Component.segment number ≤ Component.segment reference :=
    Std.not_le.mpr (Component.segment_lt_segment.mpr above)
  rw [next_segment, matchesObject, matchesTarget]
  split
  · rfl
  · simp [ContentObject.target, named, Name.isPrefixOf_segment, excludes, following, Exclude.contains,
      Exclude.upTo, kept, fitsSuffix, matchesPublisher, ofName]

theorem touches_of_matchesObject {interest : Interest} {object : ContentObject} {stream : Name} {number : UInt64}
    (matched : interest.matchesObject object = true) (named : object.name = stream.segment number) :
    interest.name.touches stream = true := by
  rw [Name.touches, Bool.or_eq_true]
  rcases matchesObject_cases matched with spelled | ⟨begins, -⟩
  · apply Or.inr
    rw [spelled, ContentObject.fullName, named]
    exact Name.isPrefixOf_trans (Name.isPrefixOf_segment _ _) (Name.isPrefixOf_child _ _)
  · rw [named] at begins
    rcases Name.isPrefixOf_child_iff.mp begins with within | whole
    · exact Or.inl within
    · exact Or.inr (whole ▸ Name.isPrefixOf_segment _ _)

end Interest

end NamedContent
