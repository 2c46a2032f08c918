import NamedContent.Proofs.Flow.Meeting

/-! What the buffer gives for an interest.

The search scans one run of names and then looks up one object by its full
name. It finds what a look at everything buffered would find. An object at or
under the full name of another one is found before that one. -/

set_option autoImplicit false

namespace NamedContent

namespace Flow

variable {τ : Type} {flow : Flow τ} {interest : Interest} {object : ContentObject}

/-- The search finds the preferred one of all choices; if there are none, the
object whose full name is spelled out; and nothing only if nothing buffered both
matches and is in order. -/
theorem buffer_search_is_exhaustive (flow : Flow τ) (interest : Interest) :
    ((flow.choices interest).Nonempty ↔
      ∃ object, flow.Preferred interest object ∧ flow.bestBuffered? interest = some object) ∧
    (∀ object, flow.bestBuffered? interest = some object ↔
      flow.Preferred interest object ∨ flow.choices interest = ∅ ∧ flow.Spelled interest object) ∧
    (flow.bestBuffered? interest = none ↔ ∀ object ∈ flow.buffer.values,
      ¬ (interest.matchesObject object = true ∧ flow.inOrder interest object.name = true)) := by
  refine ⟨?_, fun object => bestBuffered?_eq_some_iff, ?_⟩
  · constructor
    · intro some
      obtain ⟨object, found⟩ := Option.ne_none_iff_exists'.mp (mt scanned?_eq_none_iff.mp some.ne_empty)
      have preferred := scanned?_eq_some_iff.mp found
      exact ⟨object, preferred, bestBuffered?_eq_some_iff.mpr (Or.inl preferred)⟩
    · rintro ⟨object, preferred, -⟩
      exact ⟨object, preferred.choice⟩
  · rw [bestBuffered?_eq_none_iff]
    simp only [not_and, Bool.not_eq_true]

/-! What is forgotten by age makes no difference to the search. -/

-- The mark under which something is buffered is not forgotten.
theorem lowWater?_expire (flow : Flow τ) {stream : Name} (stored : object ∈ flow.buffer.values)
    (begins : stream.isPrefixOf object.name = true) (now : Timestamp) :
    (flow.expire now).lowWater? stream = flow.lowWater? stream := by
  have under : flow.buffer.anyUnder stream = true := NameIndex.anyUnder_iff.mpr ⟨object, stored, begins⟩
  simp only [lowWater?, expire]
  split
  · rw [NameIndex.find?_filter]
    cases found : flow.marks.find? stream with
    | none => rfl
    | some mark =>
      obtain ⟨-, named⟩ := NameIndex.find?_eq_some_iff.mp found
      rw [Option.filter_some, named, under, Bool.or_true, if_pos rfl]
  · rfl

theorem inOrder_expire (flow : Flow τ) (stored : object ∈ flow.buffer.values)
    (matched : interest.matchesObject object = true) (now : Timestamp) :
    (flow.expire now).inOrder interest object.name = flow.inOrder interest object.name := by
  rcases Interest.matchesObject_cases matched with spelled | ⟨begins, -⟩
  · exact ((flow.expire now).inOrder_of_fullName spelled.symm).trans (flow.inOrder_of_fullName spelled.symm).symm
  · have strict : (flow.expire now).config = flow.config := rfl
    simp only [inOrder, flow.lowWater?_expire stored begins now, strict]

theorem choices_expire (flow : Flow τ) (interest : Interest) (now : Timestamp) :
    (flow.expire now).choices interest = flow.choices interest := by
  ext object
  constructor
  · rintro ⟨stored, begins, matched, ordered⟩
    exact ⟨stored, begins, matched, (flow.inOrder_expire stored matched now).symm.trans ordered⟩
  · rintro ⟨stored, begins, matched, ordered⟩
    exact ⟨stored, begins, matched, (flow.inOrder_expire stored matched now).trans ordered⟩

-- The search finds the same before and after something is forgotten by age.
theorem bestBuffered?_expire (flow : Flow τ) (interest : Interest) (now : Timestamp) :
    (flow.expire now).bestBuffered? interest = flow.bestBuffered? interest := by
  have same := flow.choices_expire interest now
  ext object
  have preferred : (flow.expire now).Preferred interest object ↔ flow.Preferred interest object :=
    ⟨fun ⟨choice, smallest, greatest⟩ => ⟨same ▸ choice, same ▸ smallest, same ▸ greatest⟩,
      fun ⟨choice, smallest, greatest⟩ => ⟨same ▸ choice, same ▸ smallest, same ▸ greatest⟩⟩
  have spelled : (flow.expire now).Spelled interest object ↔ flow.Spelled interest object :=
    ⟨fun ⟨stored, named, published⟩ => ⟨stored, named, published⟩,
      fun ⟨stored, named, published⟩ => ⟨stored, named, published⟩⟩
  rw [bestBuffered?_eq_some_iff, bestBuffered?_eq_some_iff, preferred, spelled, same]

/-! Asking for an object by its full name. -/

theorem mem_choices_ofName_iff {name : Name} :
    object ∈ flow.choices (.ofName name) ↔ object ∈ flow.buffer.values ∧ name.isPrefixOf object.name = true := by
  constructor
  · rintro ⟨stored, begins, -⟩
    exact ⟨stored, begins⟩
  · rintro ⟨stored, begins⟩
    exact ⟨stored, begins, Interest.matchesObject_ofName begins, inOrder_ofName flow name object.name⟩

theorem not_mem_choices_fullName : object ∉ flow.choices (.ofName object.fullName) := by
  rintro ⟨-, begins, -⟩
  have longer := Name.length_le_of_isPrefixOf begins
  rw [Interest.ofName, ContentObject.fullName, Name.length_child] at longer
  omega

theorem spelled_ofName (stored : object ∈ flow.buffer.values) : flow.Spelled (.ofName object.fullName) object where
  stored := stored
  named := rfl
  published := rfl

theorem Spelled.eq {other : ContentObject} (first : flow.Spelled interest object) (second : flow.Spelled interest other) :
    object = other :=
  Option.some.inj ((spelled?_eq_some_iff.mpr first).symm.trans (spelled?_eq_some_iff.mpr second))

theorem bestBuffered?_fullName (stored : object ∈ flow.buffer.values) :
    ∃ found, flow.bestBuffered? (.ofName object.fullName) = some found ∧
      (found = object ↔ ∀ other ∈ flow.buffer.values, object.fullName.isPrefixOf other.name = false) ∧
      (found ≠ object → found ∈ flow.buffer.values ∧ object.fullName.isPrefixOf found.name = true ∧
        ∀ other ∈ flow.buffer.values, object.fullName.isPrefixOf other.name = true → found.name ≤ other.name) := by
  have bare : flow.choices (.ofName object.fullName) = ∅ ↔
      ∀ other ∈ flow.buffer.values, object.fullName.isPrefixOf other.name = false := by
    rw [Set.eq_empty_iff_forall_notMem]
    simp only [mem_choices_ofName_iff, not_and, Bool.not_eq_true]
  obtain ⟨found, best⟩ : ∃ found, flow.bestBuffered? (.ofName object.fullName) = some found := by
    refine Option.ne_none_iff_exists'.mp fun nothing => ?_
    have matched : (Interest.ofName object.fullName).matchesObject object = true :=
      Interest.matchesObject_of_fullName rfl
    have late := inOrder_eq_false_of_bestBuffered? nothing stored matched
    exact absurd ((inOrder_ofName flow _ _).symm.trans late) (by simp)
  refine ⟨found, best, ?_⟩
  rw [← bare]
  rcases bestBuffered?_eq_some_iff.mp best with preferred | ⟨empty, spelled⟩
  · have other : found ≠ object := by
      rintro rfl
      exact not_mem_choices_fullName preferred.choice
    obtain ⟨held, begins⟩ := mem_choices_ofName_iff.mp preferred.choice
    refine ⟨iff_of_false other (Set.nonempty_iff_ne_empty.mp ⟨found, preferred.choice⟩), fun _ => ⟨held, begins, ?_⟩⟩
    intro rival rivalHeld rivalBegins
    exact preferred.smallest (by simp [Interest.ofName]) rival (mem_choices_ofName_iff.mpr ⟨rivalHeld, rivalBegins⟩)
  · have same : found = object := spelled.eq (spelled_ofName stored)
    exact ⟨iff_of_true same empty, fun other => absurd same other⟩

/-- An interest in nothing but the full name of a buffered object is answered. It
gets the object itself exactly if nothing lies at or under that name, and else
the first object that does. -/
theorem full_name_fetches_iff_nothing_under [Transport τ] (flow : Flow τ) (object : ContentObject) (now : Timestamp)
    (opened : flow.closed = false) (stored : object ∈ flow.buffer.values)
    (near : flow.overlaps object.fullName = true)
    (takes : ∀ other, (Transport.deliver flow.transport other).1 = .ok ()) :
    ∃ sent after, flow.ask [.ofName object.fullName] now = (.ok 1, after) ∧
      (flow.moments (.ask [.ofName object.fullName] now)).map (·.event)
        = [.expired now, .answered (.ofName object.fullName) sent] ∧
      Transport.deliver flow.transport sent = (.ok (), after.transport) ∧
      after.buffer = flow.buffer.erase sent.name ∧
      (sent = object ↔ ∀ other ∈ flow.buffer.values, object.fullName.isPrefixOf other.name = false) ∧
      (sent ≠ object → sent ∈ flow.buffer.values ∧ object.fullName.isPrefixOf sent.name = true ∧
        ∀ other ∈ flow.buffer.values, object.fullName.isPrefixOf other.name = true → sent.name ≤ other.name) := by
  have heeded : flow.ignores (.ofName object.fullName) = false := ignores_eq_false_of_overlaps opened near rfl
  obtain ⟨sent, best, itself, first⟩ :=
    bestBuffered?_fullName (show object ∈ (flow.expire now).buffer.values from stored)
  have handed : Transport.deliver flow.transport sent = (.ok (), (Transport.deliver flow.transport sent).2) :=
    Prod.ext (takes sent) rfl
  obtain ⟨after, answered, carrier, left, moments⟩ := ask_single heeded best handed
  refine ⟨sent, after, answered, by rw [moments]; rfl, ?_, left, itself, first⟩
  rw [carrier]
  exact handed

namespace Sample

def letter : ContentObject := .new (Sample.stream.child ⟨[0x61]⟩) [0x61]

def enclosure : ContentObject := .new letter.fullName [0x62]

def enclosed : List Request := [.addNamespace Sample.stream, .put letter ⟨1000⟩, .put enclosure ⟨1000⟩]

def unenclosed : List Request := [.addNamespace Sample.stream, .put letter ⟨1000⟩, .put (segment 1) ⟨1000⟩]

end Sample

open Flow.Sample in
/-- Who asks for the letter by its full name gets the enclosure, and the letter stays. -/
theorem full_name_fetches_enclosure :
    let flow := (fresh.run enclosed).2
    letter ∈ flow.buffer.values ∧ flow.closed = false ∧ flow.overlaps letter.fullName = true ∧
      (flow.ask [.ofName letter.fullName] ⟨1000⟩).1 = .ok 1 ∧
      (flow.ask [.ofName letter.fullName] ⟨1000⟩).2.transport = [enclosure] ∧
      (flow.ask [.ofName letter.fullName] ⟨1000⟩).2.buffer.values = [letter] := by
  intro flow
  refine ⟨?_, ?_, ?_, ?_, ?_, ?_⟩ <;> decide +kernel

open Flow.Sample in
theorem full_name_fetches_letter :
    let flow := (fresh.run unenclosed).2
    letter ∈ flow.buffer.values ∧ ∃ after, flow.ask [.ofName letter.fullName] ⟨1000⟩ = (.ok 1, after) ∧
      after.transport = [letter] ∧ after.buffer.values = [segment 1] := by
  intro flow
  have stored : letter ∈ flow.buffer.values := by decide +kernel
  have alone : ∀ other ∈ flow.buffer.values, letter.fullName.isPrefixOf other.name = false := by decide +kernel
  have taken : ∀ other, Transport.deliver flow.transport other = (.ok (), [other]) := fun other => by
    rw [show flow.transport = [] by decide +kernel]
    rfl
  obtain ⟨sent, after, answered, -, handed, left, itself, -⟩ := full_name_fetches_iff_nothing_under flow letter ⟨1000⟩
    (by decide +kernel) stored (by decide +kernel) (fun other => by rw [taken other])
  obtain rfl : sent = letter := itself.mpr alone
  rw [taken] at handed
  refine ⟨stored, after, answered, (Prod.mk.inj handed).2.symm, ?_⟩
  rw [left]
  decide +kernel

end Flow

end NamedContent
