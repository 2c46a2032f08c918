import NamedContent.Proofs.Flow.Meeting
import NamedContent.Proofs.Flow.Record

/-! Which of several objects of one name goes out.

A put that is buffered takes the place of an older object of its name. One that
goes to a pending interest leaves the older object where it is, so that a later
interest gets it. There is no other way in which an object goes out after
another of its name has been put. -/

set_option autoImplicit false

namespace NamedContent.Flow

variable {τ : Type} {start final : Flow τ} {moments : List (Moment τ)} {old new : ContentObject}

/-- An object that was put goes out after another one of its name was put, and
not because it was put again. -/
def Resurfaces (moments : List (Moment τ)) (old new : ContentObject) : Prop :=
  ∃ earlier putting between sending later, moments = earlier ++ putting :: (between ++ sending :: later) ∧
    (∃ moment ∈ earlier, moment.event.put? = some old) ∧ putting.event.put? = some new ∧
    (∀ moment ∈ between ++ [sending], moment.event.put? ≠ some old) ∧ sending.event.accepted? = some old

/-- An object is buffered while another one goes to an interest that was waiting,
and stays until an interest gets it. -/
def Lingers (moments : List (Moment τ)) (old new : ContentObject) : Prop :=
  ∃ earlier putting between sending later candidate interest,
    moments = earlier ++ putting :: (between ++ sending :: later) ∧
    old ∈ putting.before.buffer.values ∧ putting.event = .delivered new candidate ∧
    (∀ moment ∈ between, moment.event.put? ≠ some old ∧ old ∈ moment.after.buffer.values) ∧
    sending.event = .answered interest old

theorem Event.answered_of_accepted? {event : Event} (accepts : event.accepted? = some old)
    (unput : event.put? ≠ some old) : ∃ interest, event = .answered interest old := by
  cases event with
  | answered interest object => exact ⟨interest, congrArg _ (Option.some.inj accepts)⟩
  | bypassed object => exact absurd accepts unput
  | delivered object candidate => exact absurd accepts unput
  | _ => exact absurd accepts (by simp [accepted?])

variable [Transport τ]

theorem Trail.enabled (trail : Trail start moments final) (first : start.enabled = true)
    (on : ∀ moment ∈ moments, moment.event ≠ .managed (.setEnabled false)) : final.enabled = true := by
  induction trail with
  | still => exact first
  | move step _ ih =>
    obtain ⟨stays, later⟩ := List.forall_mem_cons.mp on
    refine ih ?_ later
    rcases step.enabled_cases with same | ⟨_ | _, set, same⟩
    · exact same.trans first
    · exact absurd set stays
    · exact same

-- What is buffered in the end and not put on the way was buffered all along.
theorem Trail.stored_throughout (trail : Trail start moments final) (stored : old ∈ final.buffer.values)
    (unput : ∀ moment ∈ moments, moment.event.put? ≠ some old) :
    old ∈ start.buffer.values ∧ ∀ moment ∈ moments, old ∈ moment.after.buffer.values := by
  induction trail with
  | still => exact ⟨stored, by simp⟩
  | move step _ ih =>
    obtain ⟨first, later⟩ := List.forall_mem_cons.mp unput
    obtain ⟨next, rest⟩ := ih stored later
    refine ⟨?_, List.forall_mem_cons.mpr ⟨next, rest⟩⟩
    rcases step.stored_cases next with held | rfl
    · exact held
    · exact absurd rfl first

theorem Step.stored_of_answered {before after : Flow τ} {interest : Interest}
    (step : before.Step (.answered interest old) after) : old ∈ before.buffer.values := by
  cases step with
  | answer heeded best => exact (bestBuffered?_cases best).1

-- Of a name only the object put last is buffered, unless its put found an interest.
theorem Step.delivered_of_stored {before after : Flow τ} {event : Event} (step : before.Step event after)
    (enabled : before.enabled = true) (puts : event.put? = some new) (same : new.name = old.name) (other : new ≠ old)
    (stored : old ∈ after.buffer.values) :
    ∃ candidate, event = .delivered new candidate ∧ old ∈ before.buffer.values := by
  cases step with
  | bypass judged =>
    cases judged with
    | bypass _ disabled => exact absurd (enabled.symm.trans disabled) (by simp)
  | @deliver object candidate transport =>
    obtain rfl : object = new := Option.some.inj puts
    exact ⟨candidate, rfl, by simpa using stored⟩
  | @buffer object =>
    obtain rfl : object = new := Option.some.inj puts
    rcases NameIndex.mem_insert_iff.mp stored with rfl | ⟨-, apart⟩
    · exact absurd rfl other
    · exact absurd same.symm apart
  | _ => exact absurd puts (by simp [Event.put?])

/-- While flow control is on, an object goes out after another one of its name
was put exactly if that one went to an interest that was waiting, while the
older object was buffered and stayed so. -/
theorem resurfaces_iff_lingers (config : FlowConfig) (transport : τ) {requests : List Request}
    (on : Request.setEnabled false ∉ requests) (same : new.name = old.name) (other : new ≠ old) :
    Resurfaces ((Flow.new config transport).history requests) old new ↔
      Lingers ((Flow.new config transport).history requests) old new := by
  have trail := (Flow.new config transport).trail_history requests
  constructor
  · rintro ⟨earlier, putting, between, sending, later, divided, -, puts, unput, accepts⟩
    have whole := divided ▸ trail
    obtain ⟨past, step, rest⟩ := whole.at_moment
    obtain ⟨passing, sends, -⟩ := rest.at_moment
    obtain ⟨unputBetween, unputSending⟩ := List.forall_mem_append.mp unput
    obtain ⟨interest, answered⟩ := Event.answered_of_accepted? accepts (unputSending _ List.mem_cons_self)
    rw [answered] at sends
    obtain ⟨stored, kept⟩ := passing.stored_throughout sends.stored_of_answered unputBetween
    have enabled : putting.before.enabled = true := by
      refine past.enabled rfl fun moment found managed => on ?_
      exact managed_of_mem_history (divided ▸ List.mem_append_left _ found) managed
    obtain ⟨candidate, delivered, held⟩ := step.delivered_of_stored enabled puts same other stored
    exact ⟨earlier, putting, between, sending, later, candidate, interest, divided, held, delivered,
      fun moment found => ⟨unputBetween moment found, kept moment found⟩, answered⟩
  · rintro ⟨earlier, putting, between, sending, later, candidate, interest, divided, held, delivered, kept, answered⟩
    refine ⟨earlier, putting, between, sending, later, divided, ?_, by rw [delivered]; rfl, ?_, by rw [answered]; rfl⟩
    · -- What is buffered was put, as nothing is buffered at the start.
      by_contra unput
      obtain ⟨past, -, -⟩ := (divided ▸ trail).at_moment
      have nothing := (past.stored_throughout held fun moment found puts => unput ⟨moment, found, puts⟩).1
      exact absurd nothing List.not_mem_nil
    · refine List.forall_mem_append.mpr ⟨fun moment found => (kept moment found).1, ?_⟩
      intro moment found
      rw [List.mem_singleton.mp found, answered]
      simp [Event.put?]

namespace Sample

def publisher : Publisher := ⟨⟨.replicate 32 7⟩⟩

def item : Name := .ofBytes [[0x73], [0x61]]

def original : ContentObject := .new item [0x6F, 0x6C, 0x64]

def renewed : ContentObject := .published item publisher [0x6E, 0x65, 0x77]

/-- The original is buffered beside an interest in objects of the publisher, and
after the renewed object has gone to that interest any object is asked for. -/
def renewal : List Request :=
  [.addNamespace Sample.stream, .put original ⟨1000⟩, .ask [(Interest.ofName item).withPublisher publisher] ⟨1000⟩,
    .put renewed ⟨1000⟩, .ask [.ofName item] ⟨1000⟩]

def renewing : List (Moment (List ContentObject)) := (Flow.new .standard []).history renewal

def renewingPut : Moment (List ContentObject) := renewing.get ⟨6, by decide +kernel⟩

def renewingAnswer : Moment (List ContentObject) := renewing.get ⟨8, by decide +kernel⟩

def renewingBetween : List (Moment (List ContentObject)) := (renewing.drop 7).take 1

theorem renewing_eq :
    renewing = renewing.take 6 ++ renewingPut :: (renewingBetween ++ renewingAnswer :: renewing.drop 9) := by
  have later : renewing.drop 8 = renewingAnswer :: renewing.drop 9 := List.drop_eq_getElem_cons _
  have middle : renewing.drop 7 = renewingBetween ++ renewing.drop 8 := (List.take_append_drop 1 _).symm
  have rest : renewing.drop 6 = renewingPut :: renewing.drop 7 := List.drop_eq_getElem_cons _
  rw [← later, ← middle, ← rest, List.take_append_drop]

end Sample

open Flow.Sample in
theorem original_goes_out_after_renewed :
    renewed.name = original.name ∧ renewed ≠ original ∧
      ((Flow.new .standard ([] : List ContentObject)).run renewal).2.transport = [renewed, original] ∧
      Resurfaces renewing original renewed := by
  refine ⟨rfl, by decide +kernel, by decide +kernel, _, _, _, _, _, renewing_eq, ?_, ?_, ?_, ?_⟩
  · decide +kernel
  · decide +kernel
  · decide +kernel
  · decide +kernel

open Flow.Sample in
/-- The renewed object goes to an interest while the original is buffered, and so
the original resurfaces. -/
theorem original_lingers :
    Request.setEnabled false ∉ renewal ∧ renewed.name = original.name ∧ renewed ≠ original ∧
      Lingers renewing original renewed ∧ Resurfaces renewing original renewed := by
  have on : Request.setEnabled false ∉ renewal := by decide +kernel
  have same : renewed.name = original.name := rfl
  have other : renewed ≠ original := by decide +kernel
  have lingers : Lingers renewing original renewed := by
    refine ⟨_, _, _, _, _, ⟨(Interest.ofName item).withPublisher publisher, ⟨0, some ⟨5000⟩⟩⟩,
      .ofName item, renewing_eq, ?_, ?_, ?_, ?_⟩
    · decide +kernel
    · decide +kernel
    · decide +kernel
    · decide +kernel
  exact ⟨on, same, other, lingers, (resurfaces_iff_lingers .standard [] on same other).mpr lingers⟩

end NamedContent.Flow
