import NamedContent.Proofs.Flow.Progress

/-! Marks of streams outside the namespaces.

Whoever drops a namespace drops the marks of the streams that are left outside.
A delivery writes a mark without asking whether a namespace begins the stream.
None does where content outlives its namespace in the buffer, or where the
namespace is itself the name of a segment, and nowhere else. -/

set_option autoImplicit false

namespace NamedContent

namespace Flow

variable {τ : Type} {flow before after start final : Flow τ} {event : Event} {moments : List (Moment τ)}
variable {stream name : Name} {number : UInt64}

/-- A stream has a mark, and no namespace begins it. -/
structure Strays (flow : Flow τ) (stream : Name) : Prop where
  marked : (flow.lowWater? stream).isSome = true
  outside : flow.covers stream = false

theorem covers_addNamespace (held : Name) (covered : flow.covers name = true) :
    (flow.addNamespace held).covers name = true := by
  obtain ⟨other, registered, begins⟩ := List.any_eq_true.mp covered
  unfold addNamespace
  split
  · exact covered
  · exact List.any_eq_true.mpr ⟨other, List.mem_append_left _ registered, begins⟩

variable [Transport τ]

namespace Step

theorem outside_cases (step : before.Step event after) (outside : after.covers name = false) :
    before.covers name = false ∨ ∃ held, event = .managed (.removeNamespace held) ∧ held ∈ before.namespaces := by
  cases step with
  | addNamespace held =>
    rw [← Bool.not_eq_true] at outside ⊢
    exact Or.inl (mt (covers_addNamespace held) outside)
  | removeNamespace held =>
    by_cases registered : held ∈ before.namespaces
    · exact Or.inr ⟨held, rfl, registered⟩
    · rw [removeNamespace_of_not_mem registered] at outside
      exact Or.inl outside
  | deliver => exact Or.inl (by simpa [covers] using outside)
  | answer => exact Or.inl (by simpa [covers] using outside)
  | _ => exact Or.inl outside

theorem strays_cases (step : before.Step event after) (strays : after.Strays stream) :
    before.Strays stream ∨ (∃ number, event.Advances stream number) ∧ before.covers stream = false := by
  by_cases moves : ∃ number, event.Advances stream number
  · obtain ⟨number, advances⟩ := moves
    have same := (step.unmanaged_eq advances.unmanaged).2
    have outside := strays.outside
    rw [covers, same] at outside
    exact Or.inr ⟨⟨number, advances⟩, outside⟩
  · have held : after.marks.find? stream ≠ none := by
      simpa [lowWater?, Option.isSome_iff_ne_none] using strays.marked
    have same := (step.find?_cases (not_exists.mp moves)).resolve_right held
    obtain ⟨mark, marked⟩ := Option.ne_none_iff_exists'.mp (same ▸ held)
    refine Or.inl ⟨by simp [lowWater?, marked], ?_⟩
    rcases step.outside_cases strays.outside with outside | ⟨other, removes, registered⟩
    · exact outside
    · exact absurd ((step.find?_eq_none_iff marked).mpr (Or.inr (Or.inl ⟨other, removes, registered, strays.outside⟩)))
        held

theorem strays_of_advances (step : before.Step event after) (advances : event.Advances stream number)
    (outside : before.covers stream = false) : after.Strays stream where
  marked := by simp [lowWater?, step.find?_of_advances advances]
  outside := by
    rw [covers, (step.unmanaged_eq advances.unmanaged).2]
    exact outside

end Step

theorem Trail.strays (trail : Trail start moments final) (strays : start.Strays stream)
    (kept : ∀ moment ∈ moments, moment.forgets stream = false ∧ moment.after.covers stream = false) :
    final.Strays stream := by
  induction trail with
  | still => exact strays
  | @move before after final event rest step _ ih =>
    obtain ⟨⟨remembered, outside⟩, others⟩ := List.forall_mem_cons.mp kept
    refine ih ⟨?_, outside⟩ others
    simpa [Moment.forgets, strays.marked, Option.isSome_iff_ne_none] using remembered

/-- A delivery on a stream found it outside, and since then the stream has been
neither forgotten nor inside. -/
def LeftOutside (stream : Name) (moments : List (Moment τ)) : Prop :=
  ∃ past moment later number, moments = past ++ moment :: later ∧ moment.event.Advances stream number ∧
    moment.before.covers stream = false ∧
    ∀ kept ∈ later, kept.forgets stream = false ∧ kept.after.covers stream = false

theorem Trail.leftOutside (trail : Trail start moments final) (orderly : ¬ start.Strays stream)
    (strays : final.Strays stream) : LeftOutside stream moments := by
  refine trail.carries (List.nil_append _).symm (fun past flow => flow.Strays stream → LeftOutside stream past)
    (fun strays => absurd strays orderly) ?_ strays
  intro past later moment _ step held strays
  rcases step.strays_cases strays with earlier | ⟨⟨number, advances⟩, outside⟩
  · obtain ⟨before, delivery, since, number, divided, advances, outside, kept⟩ := held earlier
    refine ⟨before, delivery, since ++ [moment], number, by simp [divided], advances, outside, ?_⟩
    intro other found
    rcases List.mem_append.mp found with sooner | last
    · exact kept other sooner
    · obtain rfl := List.mem_singleton.mp last
      exact ⟨by simp [Moment.forgets, strays.marked], strays.outside⟩
  · exact ⟨past, moment, [], number, rfl, advances, outside, by simp⟩

theorem Step.added_cases (step : before.Step event after) (registered : name ∈ after.namespaces) :
    name ∈ before.namespaces ∨ event = .managed (.addNamespace name) := by
  cases step with
  | addNamespace held =>
    unfold Flow.addNamespace at registered
    split at registered
    · exact Or.inl registered
    · rcases List.mem_append.mp registered with earlier | last
      · exact Or.inl earlier
      · exact Or.inr (List.mem_singleton.mp last ▸ rfl)
  | removeNamespace held =>
    unfold Flow.removeNamespace at registered
    simp only at registered
    split at registered
    · exact Or.inl registered
    · exact Or.inl (List.mem_filter.mp registered).1
  | deliver => exact Or.inl (by simpa using registered)
  | answer => exact Or.inl (by simpa using registered)
  | _ => exact Or.inl registered

theorem Step.covers_of_buffered {object : ContentObject} (step : before.Step (.buffered object) after) :
    before.covers object.name = true := by
  cases step with
  | buffer judged =>
    cases judged with
    | buffer weighed => exact (weighs_iff.mp weighed).2.2

/-- Everything buffered lies under a namespace, and every namespace has been added. -/
structure Sheltered (past : List (Moment τ)) (flow : Flow τ) : Prop where
  covered : ∀ object ∈ flow.buffer.values, flow.covers object.name = true
  added : ∀ held ∈ flow.namespaces, ∃ moment ∈ past, moment.event = .managed (.addNamespace held)

namespace Sheltered

variable {past : List (Moment τ)} {moment : Moment τ}

theorem step (sheltered : Sheltered past moment.before) (step : moment.before.Step moment.event moment.after)
    (kept : ∀ name, moment.event ≠ .managed (.removeNamespace name)) :
    Sheltered (past ++ [moment]) moment.after where
  covered := by
    intro object stored
    have inside : moment.before.covers object.name = true := by
      rcases step.stored_cases stored with earlier | buffered
      · exact sheltered.covered object earlier
      · rw [buffered] at step
        exact step.covers_of_buffered
    by_contra outside
    rcases step.outside_cases (Bool.eq_false_iff.mpr outside) with before | ⟨held, removes, -⟩
    · exact absurd (inside.symm.trans before) (by simp)
    · exact kept held removes
  added := by
    intro held registered
    rcases step.added_cases registered with earlier | adds
    · obtain ⟨other, found, adds⟩ := sheltered.added held earlier
      exact ⟨other, List.mem_append_left _ found, adds⟩
    · exact ⟨moment, List.mem_append_right _ List.mem_cons_self, adds⟩

-- What goes out for an interest lies under a namespace when it does.
theorem covers_of_advances (sheltered : Sheltered past before) (step : before.Step event after)
    (advances : event.Advances stream number) : before.covers (stream.segment number) = true := by
  obtain ⟨interest, object, consumed, named⟩ := advances
  rw [← named]
  cases step with
  | deliver judged =>
    obtain ⟨-, rfl⟩ := Prod.mk.inj (Option.some.inj consumed)
    cases judged with
    | deliver weighed => exact (weighs_iff.mp weighed).2.2
  | answer heeded best =>
    obtain ⟨-, rfl⟩ := Prod.mk.inj (Option.some.inj consumed)
    exact sheltered.covered _ (bestBuffered?_cases best).1
  | _ => exact absurd consumed (by simp [Event.consumed?])

-- Unless the segment itself is a namespace, its stream lies under one too.
theorem inside_of_advances (sheltered : Sheltered past before) (step : before.Step event after)
    (advances : event.Advances stream number)
    (apart : ∀ moment ∈ past, moment.event ≠ .managed (.addNamespace (stream.segment number))) :
    before.covers stream = true := by
  obtain ⟨held, registered, begins⟩ := List.any_eq_true.mp (sheltered.covers_of_advances step advances)
  rcases Name.isPrefixOf_child_iff.mp begins with within | same
  · exact List.any_eq_true.mpr ⟨held, registered, within⟩
  · obtain rfl : held = stream.segment number := same
    obtain ⟨moment, found, adds⟩ := sheltered.added _ registered
    exact absurd adds (apart moment found)

end Sheltered

theorem Trail.sheltered (trail : Trail start moments final) (sheltered : Sheltered [] start)
    (kept : ∀ moment ∈ moments, ∀ name, moment.event ≠ .managed (.removeNamespace name)) :
    Sheltered moments final := by
  refine trail.carries (List.nil_append _).symm Sheltered sheltered ?_
  intro past later moment divided step held
  exact held.step step (kept moment (divided ▸ List.mem_append_right _ List.mem_cons_self))

/-- A stream strays exactly if a delivery found it outside the namespaces and it
has been neither forgotten nor inside since. Unless a namespace goes or is itself
a segment of the stream, that never happens. -/
theorem strays_iff_left_outside (config : FlowConfig) (transport : τ) (requests : List Request) (stream : Name) :
    let history := (Flow.new config transport).history requests
    let final := ((Flow.new config transport).run requests).2
    (final.Strays stream ↔ LeftOutside stream history) ∧
      ((∀ name, .removeNamespace name ∉ requests) →
        (∀ number, .addNamespace (stream.segment number) ∉ requests) → ¬ final.Strays stream) := by
  intro history final
  have trail : Trail (Flow.new config transport) history final := (Flow.new config transport).trail_history requests
  have orderly : ¬ (Flow.new config transport).Strays stream := by
    intro strays
    exact absurd strays.marked (by simp [Flow.new, lowWater?, NameIndex.find?_eq])
  refine ⟨⟨trail.leftOutside orderly, ?_⟩, ?_⟩
  · rintro ⟨past, moment, later, number, divided, advances, outside, kept⟩
    rw [divided] at trail
    obtain ⟨-, step, rest⟩ := trail.at_moment
    exact rest.strays (step.strays_of_advances advances outside) kept
  · intro stays apart strays
    obtain ⟨past, moment, later, number, divided, advances, outside, -⟩ := trail.leftOutside orderly strays
    have found : ∀ {other}, other ∈ past → other ∈ history := fun earlier => divided ▸ List.mem_append_left _ earlier
    rw [divided] at trail
    obtain ⟨reached, step, -⟩ := trail.at_moment
    have sheltered := reached.sheltered ⟨by simp [Flow.new], by simp [Flow.new]⟩ fun other earlier name removes =>
      stays name (managed_of_mem_history (found earlier) removes)
    have inside := sheltered.inside_of_advances step advances fun other earlier adds =>
      apart number (managed_of_mem_history (found earlier) adds)
    exact absurd (inside.symm.trans outside) (by simp)

namespace Sample

/-- Segment 1 outlives its namespace in the buffer, and an interest above the
namespace that is there by then gets it. -/
def outlived : List Request :=
  [.addNamespace Sample.stream, .put (segment 1) ⟨1000⟩, .removeNamespace Sample.stream,
    .addNamespace (Sample.stream.child ⟨[0x78]⟩), .ask [.ofName Sample.stream] ⟨1000⟩]

def pinned : List Request :=
  [.addNamespace (Sample.stream.segment 1), .put (segment 1) ⟨1000⟩, .ask [.ofName Sample.stream] ⟨1000⟩]

end Sample

open Flow.Sample in
/-- Either way the stream is left with a mark outside the namespaces. -/
theorem delivered_streams_stray :
    ((fresh.run outlived).2.lowWater? Sample.stream = some 1 ∧ (fresh.run outlived).2.Strays Sample.stream) ∧
      (fresh.run pinned).2.lowWater? Sample.stream = some 1 ∧ (fresh.run pinned).2.Strays Sample.stream := by
  have first : (fresh.run outlived).2.lowWater? Sample.stream = some 1 := by decide +kernel
  have second : (fresh.run pinned).2.lowWater? Sample.stream = some 1 := by decide +kernel
  exact ⟨⟨first, by simp [first], by decide +kernel⟩, second, by simp [second], by decide +kernel⟩

open Flow.Sample in
theorem outlived_stream_is_left_outside :
    LeftOutside Sample.stream (fresh.history outlived) ∧
      (fresh.run relapse).2.lowWater? Sample.stream = some 1 ∧ ¬ (fresh.run relapse).2.Strays Sample.stream := by
  have strays : (fresh.run outlived).2.Strays Sample.stream := ⟨by decide +kernel, by decide +kernel⟩
  have marked : (fresh.run relapse).2.lowWater? Sample.stream = some 1 := by decide +kernel
  have stays : ∀ name, .removeNamespace name ∉ relapse := by simp [relapse]
  have apart : ∀ number, .addNamespace (Sample.stream.segment number) ∉ relapse := by
    intro number listed
    have same : Sample.stream.segment number = Sample.stream := by simpa [relapse] using listed
    exact absurd (congrArg Name.length same) (by simp)
  have outside := (strays_iff_left_outside .standard ([] : List ContentObject) outlived Sample.stream).1.mp strays
  have inside := (strays_iff_left_outside .standard ([] : List ContentObject) relapse Sample.stream).2 stays apart
  exact ⟨outside, marked, inside⟩

end Flow

end NamedContent
