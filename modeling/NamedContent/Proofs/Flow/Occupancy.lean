import NamedContent.Proofs.Flow.Meeting
import NamedContent.Proofs.Flow.Record

/-! How full the buffer gets.

A put that is buffered under a new name adds one object, and only where the
highwater leaves room for it. Nothing else adds any: an object that the
transport refuses takes the place it had. So the highwater is exceeded only
where it is set below what is buffered. -/

set_option autoImplicit false

namespace NamedContent.Flow

variable {τ : Type} {flow before after start final : Flow τ} {event : Event} {moments : List (Moment τ)}
variable {object : ContentObject} {now : Timestamp} {highwater : Nat}

variable [Transport τ]

theorem Step.size_cases (step : before.Step event after) :
    after.buffer.size ≤ before.buffer.size ∨
      ∃ object, event = .buffered object ∧ after.buffer.size ≤ after.config.highwater := by
  cases step with
  | addNamespace => exact Or.inl (by simp)
  | removeNamespace => exact Or.inl (by simp)
  | close => exact Or.inl (Nat.zero_le _)
  | deliver => exact Or.inl (by simp)
  | answer =>
    refine Or.inl ?_
    rw [NameIndex.size_eq, NameIndex.size_eq, NameIndex.values_erase]
    exact List.length_filter_le _ _
  | @buffer object judged =>
    cases judged with
    | buffer weighed unwanted room =>
      change (before.buffer.insert object).size ≤ _ ∨ ∃ other, _ ∧ (before.buffer.insert object).size ≤ _
      rw [NameIndex.size_insert]
      cases held : before.isBuffered object.name with
      | true => exact Or.inl (Nat.le_of_eq (if_pos held))
      | false =>
        have new := Bool.eq_false_iff.mp held
        exact Or.inr ⟨object, rfl, (Nat.le_of_eq (if_neg new)).trans (room.resolve_left new)⟩
  | _ => exact Or.inl (Nat.le_refl _)

theorem Step.highwater_cases (step : before.Step event after) :
    after.config.highwater = before.config.highwater ∨ ∃ highwater, event = .managed (.setHighwater highwater) := by
  cases step with
  | setHighwater highwater => exact Or.inr ⟨highwater, rfl⟩
  | addNamespace => exact Or.inl (by simp)
  | removeNamespace => exact Or.inl (by simp)
  | deliver => exact Or.inl (by simp)
  | answer => exact Or.inl (by simp)
  | _ => exact Or.inl rfl

theorem Trail.size_le (trail : Trail start moments final)
    (quiet : ∀ moment ∈ moments, ∀ object, moment.event ≠ .buffered object) :
    final.buffer.size ≤ start.buffer.size := by
  induction trail with
  | still => exact Nat.le_refl _
  | move step _ ih =>
    obtain ⟨first, later⟩ := List.forall_mem_cons.mp quiet
    rcases step.size_cases with kept | ⟨object, buffered, -⟩
    · exact Nat.le_trans (ih later) kept
    · exact absurd buffered (first object)

theorem Trail.within (trail : Trail start moments final) (held : start.buffer.size ≤ start.config.highwater)
    (unset : ∀ moment ∈ moments, ∀ highwater, moment.event ≠ .managed (.setHighwater highwater)) :
    final.buffer.size ≤ final.config.highwater := by
  induction trail with
  | still => exact held
  | move step _ ih =>
    obtain ⟨first, later⟩ := List.forall_mem_cons.mp unset
    refine ih ?_ later
    rcases step.size_cases with kept | ⟨-, -, room⟩
    · rcases step.highwater_cases with same | ⟨highwater, set⟩
      · exact Nat.le_trans kept (same ▸ held)
      · exact absurd set (first highwater)
    · exact room

theorem put_of_buffered {moment : Moment τ} {request : Request} (found : moment ∈ flow.moments request)
    (buffered : moment.event = .buffered object) : ∃ now, request = .put object now := by
  have listed : object ∈ (flow.moments request).filterMap (·.event.put?) :=
    List.mem_filterMap.mpr ⟨moment, found, by rw [buffered]; rfl⟩
  rw [put?_moments] at listed
  cases request with
  | put other now =>
    cases answer : (flow.put other now).1 with
    | error failure => simp [handle, answer, succeeded?] at listed
    | ok outcome =>
      obtain rfl : object = other := by simpa [handle, answer, succeeded?] using listed
      exact ⟨now, rfl⟩
  | _ => simp [succeeded?] at listed

theorem put_stores_cases (flow : Flow τ) (object : ContentObject) (now : Timestamp) :
    (flow.put object now).2.config = flow.config ∧
      ((flow.put object now).1 ≠ .ok .buffered ∧ (flow.put object now).2.buffer = flow.buffer ∨
        (flow.put object now).1 = .ok .buffered ∧ (flow.put object now).2.buffer = flow.buffer.insert object ∧
          (flow.isBuffered object.name = true ∨ flow.buffer.size < flow.config.highwater)) := by
  obtain ⟨answer, weighed, weighing, judged, result⟩ := flow.put_cases object now
  have config : weighed.config = flow.config := by rw [weighing]; split <;> rfl
  have buffer : weighed.buffer = flow.buffer := by rw [weighing]; split <;> rfl
  rw [result]
  cases judged with
  | closed | outside | full => exact ⟨config, Or.inl ⟨by simp, buffer⟩⟩
  | bypass =>
    rcases handed : Transport.deliver weighed.transport object with ⟨fault | done, transport⟩
    · simpa [commit, send_error handed] using ⟨config, buffer⟩
    · simpa [commit, send_ok handed] using ⟨config, buffer⟩
  | deliver =>
    rcases weighed.deliver_cases object with ⟨fault, transport, -, sent⟩ | ⟨transport, -, sent⟩
    · simpa [commit, sent] using ⟨config, buffer⟩
    · simpa [commit, sent] using ⟨config, buffer⟩
  | buffer _ _ room =>
    refine ⟨config, Or.inr ⟨rfl, congrArg (·.insert object) buffer, ?_⟩⟩
    rwa [isBuffered, buffer, config] at room

theorem put_capacity_iff (flow : Flow τ) (object : ContentObject) (now : Timestamp) :
    (flow.put object now).1 = .error (.capacity highwater) ↔
      highwater = flow.config.highwater ∧ flow.weighs object = true ∧ (flow.expire now).bestPending? object = none ∧
        flow.isBuffered object.name = false ∧ flow.config.highwater ≤ flow.buffer.size := by
  obtain ⟨answer, weighed, weighing, judged, result⟩ := flow.put_cases object now
  have same : weighed.weighs object = flow.weighs object := by rw [weighing]; split <;> rfl
  rw [result]
  cases judged with
  | closed closed =>
    have blind : flow.weighs object = false := by rw [← same, weighs, closed]; rfl
    simp [blind]
  | bypass opened disabled =>
    have blind : flow.weighs object = false := by rw [← same, weighs, disabled]; simp
    rcases handed : Transport.deliver weighed.transport object with ⟨fault | done, transport⟩
    · simp [commit, send_error handed, blind]
    · simp [commit, send_ok handed, blind]
  | outside opened enabled uncovered =>
    have blind : flow.weighs object = false := by rw [← same, weighs, uncovered]; simp
    simp [blind]
  | deliver looks best =>
    obtain rfl : weighed = flow.expire now := by rwa [if_pos looks] at weighing
    rcases (flow.expire now).deliver_cases object with ⟨fault, transport, -, sent⟩ | ⟨transport, -, sent⟩
    · simp [commit, sent, best]
    · simp [commit, sent, best]
  | full looks nothing new full =>
    obtain rfl : weighed = flow.expire now := by rwa [if_pos looks] at weighing
    have parts : flow.weighs object = true ∧ flow.isBuffered object.name = false
        ∧ flow.config.highwater ≤ flow.buffer.size := ⟨same ▸ looks, new, full⟩
    have level : (flow.expire now).config.highwater = flow.config.highwater := rfl
    simpa [nothing, parts, level] using eq_comm
  | buffer looks nothing room =>
    obtain rfl : weighed = flow.expire now := by rwa [if_pos looks] at weighing
    have room : flow.isBuffered object.name = true ∨ flow.buffer.size < flow.config.highwater := room
    rcases room with held | smaller
    · simp [commit, held]
    · simpa [commit] using fun _ _ _ _ => smaller

-- A request makes the buffer larger exactly if it is a put that is buffered under a new name.
theorem size_lt_handle_iff (flow : Flow τ) (request : Request) :
    flow.buffer.size < (flow.handle request).2.buffer.size ↔
      ∃ object now, request = .put object now ∧ (flow.put object now).1 = .ok .buffered ∧
        flow.isBuffered object.name = false := by
  cases request with
  | put object now =>
    change flow.buffer.size < (flow.put object now).2.buffer.size ↔ _
    obtain ⟨-, ⟨other, buffer⟩ | ⟨stored, buffer, -⟩⟩ := flow.put_stores_cases object now
    · simp [buffer, other]
    · rw [buffer, NameIndex.size_insert, ← isBuffered]
      cases held : flow.isBuffered object.name <;> simp [stored, held]
  | _ =>
    refine iff_of_false (Nat.not_lt.mpr ((flow.trail_moments _).size_le ?_)) (by simp)
    intro moment found object buffered
    obtain ⟨now, put⟩ := put_of_buffered found buffered
    exact absurd put (by simp)

theorem within_handle {request : Request} (held : flow.buffer.size ≤ flow.config.highwater)
    (set : ∀ highwater, request = .setHighwater highwater → flow.buffer.size ≤ highwater) :
    (flow.handle request).2.buffer.size ≤ (flow.handle request).2.config.highwater := by
  by_cases sets : ∃ highwater, request = .setHighwater highwater
  · obtain ⟨highwater, rfl⟩ := sets
    exact set highwater rfl
  · refine (flow.trail_moments request).within held ?_
    intro moment found highwater managed
    exact sets ⟨highwater, (managed_of_mem_moments found managed).symm⟩

theorem within_run (held : flow.buffer.size ≤ flow.config.highwater) {requests : List Request}
    (set : ∀ earlier highwater later, requests = earlier ++ .setHighwater highwater :: later →
      (flow.run earlier).2.buffer.size ≤ highwater) :
    (flow.run requests).2.buffer.size ≤ (flow.run requests).2.config.highwater := by
  induction requests generalizing flow with
  | nil => exact held
  | cons request rest ih =>
    refine ih (within_handle held ?_) ?_
    · rintro highwater rfl
      exact set [] highwater rest rfl
    · rintro earlier highwater later rfl
      exact set (request :: earlier) highwater later rfl

/-- The buffer respects its highwater. It grows by a put alone, which is buffered
under a new name, and then by one object and up to the highwater. A put finds no
room exactly if nothing that waits may have the object, its name is new and the
buffer is at the highwater. So a highwater that is never set below what is
buffered is never exceeded. -/
theorem buffer_respects_highwater (config : FlowConfig) (transport : τ) (requests : List Request) :
    let start := Flow.new config transport
    let flow := (start.run requests).2
    (∀ request, flow.buffer.size < (flow.handle request).2.buffer.size ↔
      ∃ object now, request = .put object now ∧ (flow.put object now).1 = .ok .buffered ∧
        flow.isBuffered object.name = false) ∧
    (∀ request, flow.buffer.size < (flow.handle request).2.buffer.size →
      (flow.handle request).2.buffer.size = flow.buffer.size + 1 ∧
        (flow.handle request).2.buffer.size ≤ (flow.handle request).2.config.highwater) ∧
    (∀ object now highwater, (flow.put object now).1 = .error (.capacity highwater) ↔
      highwater = flow.config.highwater ∧ flow.closed = false ∧ flow.enabled = true ∧
        flow.covers object.name = true ∧
        (∀ interest pending, Entry.interest interest pending ∈ flow.pending.toList → pending.isLive now = true →
          interest.matchesObject object = true → (flow.expire now).inOrder interest object.name = false) ∧
        flow.isBuffered object.name = false ∧ flow.config.highwater ≤ flow.buffer.size) ∧
    ((∀ earlier highwater later, requests = earlier ++ .setHighwater highwater :: later →
        (start.run earlier).2.buffer.size ≤ highwater) →
      flow.buffer.size ≤ flow.config.highwater) := by
  intro start flow
  have wellFormed : flow.pending.WellFormed := (settled_run config transport requests).wellFormed
  refine ⟨flow.size_lt_handle_iff, ?_, ?_, within_run (Nat.zero_le _)⟩
  · intro request grows
    obtain ⟨object, now, rfl, stored, new⟩ := (flow.size_lt_handle_iff request).mp grows
    change (flow.put object now).2.buffer.size = _ ∧
      (flow.put object now).2.buffer.size ≤ (flow.put object now).2.config.highwater
    obtain ⟨config, ⟨other, -⟩ | ⟨-, buffer, room⟩⟩ := flow.put_stores_cases object now
    · exact absurd stored other
    · rw [config, buffer, NameIndex.size_insert, ← isBuffered, new, if_neg (by simp)]
      exact ⟨rfl, room.resolve_left (by simp [new])⟩
  · intro object now highwater
    have live : ∀ interest pending, Entry.interest interest pending ∈ (flow.expire now).pending.toList ↔
        Entry.interest interest pending ∈ flow.pending.toList ∧ pending.isLive now = true :=
      fun _ _ => Table.mem_filter_iff wellFormed
    rw [put_capacity_iff, bestPending?_eq_none_iff (wellFormed.filter _)]
    simp only [live, weighs, Bool.and_eq_true, Bool.not_eq_true', and_assoc, and_imp]

namespace Sample

def crowd : List Request :=
  [.addNamespace Sample.stream, .setHighwater 1, .ask [follower 0] ⟨1000⟩, .put (segment 2) ⟨1000⟩]

def uncrowded : Flow (List ContentObject) := ((Flow.new .standard []).run (crowd.take 3)).2

def crowded : Flow (List ContentObject) := ((Flow.new .standard []).run crowd).2

end Sample

open Flow.Sample in
theorem crowd_respects_highwater :
    uncrowded.buffer.size < (uncrowded.handle (.put (segment 2) ⟨1000⟩)).2.buffer.size ∧
      (uncrowded.handle (.put (segment 2) ⟨1000⟩)).2.buffer.size = uncrowded.buffer.size + 1 ∧
      (crowded.put (segment 3) ⟨1000⟩).1 = .error (.capacity 1) ∧
      (crowded.expire ⟨1000⟩).inOrder (follower 0) (segment 3).name = false ∧
      crowded.buffer.size ≤ crowded.config.highwater := by
  have larger : uncrowded.buffer.size < (uncrowded.handle (.put (segment 2) ⟨1000⟩)).2.buffer.size := by
    decide +kernel
  have refused : (crowded.put (segment 3) ⟨1000⟩).1 = .error (.capacity 1) := by decide +kernel
  have waits : Entry.interest (follower 0) ⟨0, some ⟨5000⟩⟩ ∈ crowded.pending.toList := by decide +kernel
  have matched : (follower 0).matchesObject (segment 3) = true := by decide +kernel
  unfold uncrowded crowded at *
  obtain ⟨-, grows, -⟩ := buffer_respects_highwater .standard ([] : List ContentObject) (crowd.take 3)
  obtain ⟨-, -, full, within⟩ := buffer_respects_highwater .standard ([] : List ContentObject) crowd
  obtain ⟨-, -, -, -, late, -⟩ := (full _ _ _).mp refused
  refine ⟨larger, (grows _ larger).1, refused, late _ _ waits (by decide) matched, within ?_⟩
  intro past highwater later divided
  rcases past with _ | ⟨first, _ | ⟨second, past⟩⟩
  · exact absurd divided (by simp [crowd])
  · obtain ⟨rfl, -⟩ := List.cons.inj divided
    simp [run, handle, Flow.new, NameIndex.size_eq]
  · exact absurd divided (by simp [crowd, List.cons_eq_append_iff])

end NamedContent.Flow
