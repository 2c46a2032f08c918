import NamedContent.Proofs.Interest.Children

/-! What a reader of a stream has ahead.

It asks for anything under the stream's name and then for what follows the segment
just received. What is ahead are the names that such an interest matches, and from
the next segment on they lie at or under that segment, or after it. -/

set_option autoImplicit false

namespace NamedContent

namespace Name

variable {stream name : Name} {start : Nat} {received : Option Name}

/-- What a reader of a stream has ahead: at first all names under the stream's, and
later the children after the one received last, with all that lies under one. -/
def Ahead (stream : Name) (received : Option Name) (name : Name) : Prop :=
  match received with
  | none => stream.isPrefixOf name = true
  | some last => last.LaterChild stream.length name

/-- A reader has received nothing of a stream, or the segment before a number last. -/
def Reached (stream : Name) (start : Nat) (received : Option Name) : Prop :=
  ∀ last ∈ received, ∃ number : UInt64, last = stream.segment number ∧ start = number.toNat + 1

theorem take_segment (stream : Name) (number : UInt64) : (stream.segment number).take stream.length = stream :=
  components_inj.mp List.take_left

theorem component?_segment (stream : Name) (number : UInt64) :
    (stream.segment number).component? stream.length = some (.segment number) := by
  simp [component?, segment, child, length]

theorem laterChild_segment_iff {number : UInt64} :
    (stream.segment number).LaterChild stream.length name ↔
      ∃ component path, name.components = stream.components ++ component :: path ∧ .segment number < component := by
  constructor
  · rintro ⟨-, begins, bound, component, lower, upper, less⟩
    obtain rfl := Option.some.inj ((component?_segment stream number).symm.trans lower)
    rw [take_segment, ← components_inj] at begins
    have whole := List.take_append_drop stream.length name.components
    rw [show name.components.take stream.length = stream.components from begins] at whole
    have next : name.components.drop stream.length = component :: name.components.drop (stream.length + 1) :=
      (List.drop_eq_getElem_cons (List.getElem?_eq_some_iff.mp upper).1).trans
        (congrArg (· :: _) (List.getElem?_eq_some_iff.mp upper).2)
    exact ⟨component, _, by rw [← next, whole], less⟩
  · rintro ⟨component, path, spelled, less⟩
    refine ⟨by simp [length, spelled], ?_, _, component, component?_segment stream number, ?_, less⟩
    · rw [take_segment, ← components_inj, take, spelled]
      exact List.take_left
    · simp [component?, length, spelled]

theorem Ahead.isPrefixOf (reached : stream.Reached start received) (ahead : stream.Ahead received name) :
    stream.isPrefixOf name = true := by
  cases received with
  | none => exact ahead
  | some last =>
    obtain ⟨number, rfl, -⟩ := reached last rfl
    obtain ⟨component, path, spelled, -⟩ := laterChild_segment_iff.mp ahead
    exact isPrefixOf_iff.mpr ⟨component :: path, spelled.symm⟩

section Next
variable (reached : stream.Reached start received) (fits : start < UInt64.size)
include reached fits

theorem ahead_of_segment_lt {component : Component} {path : List Component}
    (spelled : name.components = stream.components ++ component :: path)
    (above : .segment (.ofNat start) ≤ component) : stream.Ahead received name := by
  cases received with
  | none => exact isPrefixOf_iff.mpr ⟨component :: path, spelled.symm⟩
  | some last =>
    obtain ⟨number, rfl, rfl⟩ := reached last rfl
    refine laterChild_segment_iff.mpr ⟨component, path, spelled, Std.lt_of_lt_of_le ?_ above⟩
    rw [Component.segment_lt_segment, UInt64.lt_iff_toNat_lt, UInt64.toNat_ofNat_of_lt' fits]
    exact Nat.lt_succ_self _

theorem ahead_segment : stream.Ahead received (stream.segment (.ofNat start)) :=
  ahead_of_segment_lt reached fits rfl (Std.le_refl _)

-- What is ahead after the next segment was ahead before it.
theorem Ahead.of_segment (ahead : stream.Ahead (some (stream.segment (.ofNat start))) name) :
    stream.Ahead received name := by
  obtain ⟨component, path, spelled, above⟩ := laterChild_segment_iff.mp ahead
  exact ahead_of_segment_lt reached fits spelled (Std.le_of_lt above)

end Next

-- From the next segment on, what is ahead lies under that segment or after it.
theorem Ahead.cases (reached : stream.Reached start received) (ahead : stream.Ahead received name) {number : UInt64}
    (above : stream.segment number ≤ name) :
    (stream.segment number).isPrefixOf name = true ∨ stream.Ahead (some (stream.segment number)) name := by
  obtain ⟨rest, spelled⟩ := isPrefixOf_iff.mp (ahead.isPrefixOf reached)
  cases rest with
  | nil =>
    rw [List.append_nil, components_inj] at spelled
    exact absurd (spelled ▸ stream.lt_child _) (Std.not_lt.mpr above)
  | cons component path =>
    rcases Std.lt_trichotomy (Component.segment number) component with later | rfl | earlier
    · exact Or.inr (laterChild_segment_iff.mpr ⟨component, path, spelled.symm, later⟩)
    · exact Or.inl (isPrefixOf_iff.mpr ⟨path, by rw [← spelled]; simp [segment, child]⟩)
    · have below : name.components < (stream.segment number).components := by
        rw [← spelled]
        exact List.append_left_lt (List.cons_lt_cons_iff.mpr (Or.inl earlier))
      exact absurd below (Std.not_lt.mpr above)

theorem Ahead.not_isPrefixOf {number : UInt64} (ahead : stream.Ahead (some (stream.segment number)) name) :
    (stream.segment number).isPrefixOf name = false := by
  rw [← Bool.not_eq_true, isPrefixOf_iff]
  rintro ⟨rest, same⟩
  obtain ⟨component, path, spelled, above⟩ := laterChild_segment_iff.mp ahead
  have within : stream.components ++ .segment number :: rest = stream.components ++ component :: path := by
    rw [← spelled, ← same]
    simp [segment, child]
  obtain ⟨rfl, -⟩ := List.cons.inj (List.append_cancel_left within)
  exact Std.lt_irrefl above

end Name

namespace Interest

def continuing (stream : Name) : Option Name → Interest
  | none => .ofName stream
  | some last => .next last stream.length

variable {stream : Name} {start : Nat} {received : Option Name} {object : ContentObject}

theorem name_continuing (reached : stream.Reached start received) : (continuing stream received).name = stream := by
  cases received with
  | none => rfl
  | some last =>
    obtain ⟨number, rfl, -⟩ := reached last rfl
    exact Name.take_segment stream number

@[simp] theorem origin_continuing (stream : Name) (received : Option Name) :
    (continuing stream received).origin = none := by
  cases received <;> rfl

theorem selector_continuing_ne_last (stream : Name) (received : Option Name) :
    (continuing stream received).selector ≠ some .last := by
  cases received <;> simp [continuing, ofName, next, after]

-- The digest counts only where the full name is spelled out.
theorem matchesObject_eq_of_ne_fullName {interest : Interest} (unspelled : object.fullName ≠ interest.name) :
    interest.matchesObject object = interest.matchesTarget ⟨object.name, object.publisher, none⟩ := by
  have unnamed : interest.namesDigest object.target = false := by
    rw [← Bool.not_eq_true, namesDigest_iff rfl]
    exact fun spelled => unspelled spelled.symm
  have undigested : interest.namesDigest ⟨object.name, object.publisher, none⟩ = false := rfl
  rw [matchesObject, matchesTarget, matchesTarget, unnamed, undigested]
  rfl

-- A reader's interest matches what is ahead, and nothing else but the stream's own name.
theorem matchesObject_continuing_iff (reached : stream.Reached start received) (unnamed : object.name ≠ stream)
    (unspelled : object.fullName ≠ stream) :
    (continuing stream received).matchesObject object = true ↔ stream.Ahead received object.name := by
  cases received with
  | none =>
    constructor
    · intro matched
      exact ((matchesObject_cases matched).resolve_left fun spelled => unspelled spelled.symm).1
    · exact matchesObject_ofName
  | some last =>
    obtain ⟨number, rfl, -⟩ := reached last rfl
    have within : stream.length < (stream.segment number).length := by simp
    rw [matchesObject_eq_of_ne_fullName ((name_continuing reached).symm ▸ unspelled)]
    rw [continuing, next, matchesTarget_after_iff within, Name.take_segment]
    exact or_iff_right unnamed

end Interest

end NamedContent
