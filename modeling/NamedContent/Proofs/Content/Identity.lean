import NamedContent.Bytes.Width
import NamedContent.Content.Object

/-! What is hashed tells objects apart.

The bytes that a digest is taken of begin with the number of name components,
so they say how many framed parts follow, and every frame says where it ends.
They can therefore be read back. A freshness is hashed in whole milliseconds, so
what is beyond them is not read back. -/

set_option autoImplicit false

namespace NamedContent

section Frames
variable {part other after last : List UInt8}

-- A frame can be told from what comes after it.
theorem framed_append_inj (fits : part.length < 2 ^ 64) (otherFits : other.length < 2 ^ 64)
    (same : framed part ++ after = framed other ++ last) : part = other ∧ after = last := by
  rw [framed, framed, List.append_assoc, List.append_assoc] at same
  obtain ⟨lengths, rest⟩ := List.append_inj same (by simp)
  exact List.append_inj rest (Bytes.bigEndian_inj fits otherFits lengths)

theorem flatMap_framed_inj {parts others : List (List UInt8)} (count : parts.length = others.length)
    (fits : ∀ part ∈ parts, part.length < 2 ^ 64) (othersFit : ∀ part ∈ others, part.length < 2 ^ 64)
    (same : parts.flatMap framed = others.flatMap framed) : parts = others := by
  induction parts generalizing others with
  | nil => exact (List.eq_nil_of_length_eq_zero count.symm).symm
  | cons part rest ih =>
    cases others with
    | nil => exact absurd count (by simp)
    | cons other others =>
      obtain ⟨here, restFits⟩ := List.forall_mem_cons.mp fits
      obtain ⟨otherHere, otherRestFits⟩ := List.forall_mem_cons.mp othersFit
      rw [List.flatMap_cons, List.flatMap_cons] at same
      obtain ⟨rfl, later⟩ := framed_append_inj here otherHere same
      rw [ih (Nat.succ.inj count) restFits otherRestFits later]

-- An absent value cannot be taken for one whose written form is not empty.
theorem elim_nil_inj {α : Type} {write : α → List UInt8} (written : ∀ value, write value ≠ [])
    {first second : Option α} : first.elim [] write = second.elim [] write ↔ first.map write = second.map write := by
  cases first with
  | none => cases second <;> simp [eq_comm, written]
  | some value => cases second <;> simp [written]

end Frames

namespace SignedFields

variable {first second fields : SignedFields}

/-- What can be framed: all lengths fit into eight bytes. -/
structure Fits (fields : SignedFields) : Prop where
  count : fields.name.length < 2 ^ 64
  components : ∀ component ∈ fields.name.components, component.bytes.length < 2 ^ 64
  content : fields.content.length < 2 ^ 64

/-- The freshness in whole milliseconds, or the greatest number of them that fits into eight bytes. -/
def wholeMillis? (fields : SignedFields) : Option Nat :=
  fields.freshness.map fun freshness =>
    min (freshness.seconds.toNat * 1000 + freshness.nanos.val / 1000000) (2 ^ 64 - 1)

def parts (fields : SignedFields) : List (List UInt8) :=
  fields.name.components.map Component.bytes ++ [fields.publisherField, fields.freshnessField, fields.content]

theorem digestInput_eq (fields : SignedFields) :
    fields.digestInput = Bytes.bigEndian 8 fields.name.length ++ fields.parts.flatMap framed := by
  simp [digestInput, parts, List.flatMap_map]

theorem publisherField_eq (fields : SignedFields) :
    fields.publisherField = fields.publisher.elim [] (·.digest.toList) := by
  unfold publisherField
  cases fields.publisher <;> rfl

theorem freshnessField_eq (fields : SignedFields) :
    fields.freshnessField = fields.freshness.elim [] (Bytes.bigEndian 8 ·.millis.toNat) := by
  unfold freshnessField
  cases fields.freshness <;> rfl

theorem Fits.parts (fits : fields.Fits) : ∀ part ∈ fields.parts, part.length < 2 ^ 64 := by
  intro part member
  simp only [SignedFields.parts, List.mem_append, List.mem_map, List.mem_cons, List.not_mem_nil, or_false] at member
  rcases member with ⟨component, listed, rfl⟩ | rfl | rfl | rfl
  · exact fits.components component listed
  · rw [publisherField_eq]
    cases fields.publisher <;> simp
  · rw [freshnessField_eq]
    cases fields.freshness <;> simp
  · exact fits.content

theorem publisherField_inj : first.publisherField = second.publisherField ↔ first.publisher = second.publisher := by
  have written : ∀ publisher : Publisher, publisher.digest.toList ≠ [] := fun publisher =>
    List.ne_nil_of_length_pos (by simp)
  have injective : Function.Injective fun publisher : Publisher => publisher.digest.toList := by
    rintro ⟨⟨bytes⟩⟩ ⟨⟨others⟩⟩ same
    exact congrArg (Publisher.mk ∘ Digest.mk) (Vector.toList_inj.mp same)
  rw [publisherField_eq, publisherField_eq, elim_nil_inj written]
  exact (Option.map_injective injective).eq_iff

theorem wholeMillis?_eq (fields : SignedFields) : fields.wholeMillis? = fields.freshness.map (·.millis.toNat) :=
  Option.map_congr fun _ _ => (Word.toNat_clamp _).symm

theorem freshnessField_inj :
    first.freshnessField = second.freshnessField ↔ first.wholeMillis? = second.wholeMillis? := by
  have written : ∀ freshness : Duration, Bytes.bigEndian 8 freshness.millis.toNat ≠ [] := fun freshness =>
    List.ne_nil_of_length_pos (by simp)
  have injective : ∀ freshness other : Duration,
      Bytes.bigEndian 8 freshness.millis.toNat = Bytes.bigEndian 8 other.millis.toNat ↔
        freshness.millis.toNat = other.millis.toNat := fun freshness other =>
    ⟨Bytes.bigEndian_inj freshness.millis.toNat_lt other.millis.toNat_lt, congrArg _⟩
  rw [freshnessField_eq, freshnessField_eq, elim_nil_inj written, wholeMillis?_eq, wholeMillis?_eq]
  cases first.freshness <;> cases second.freshness <;> simp [injective]

theorem digestInput_eq_iff (fits : first.Fits) (otherFits : second.Fits) :
    first.digestInput = second.digestInput ↔
      first.name = second.name ∧ first.publisher = second.publisher ∧ first.content = second.content ∧
        first.wholeMillis? = second.wholeMillis? := by
  rw [← publisherField_inj, ← freshnessField_inj, digestInput_eq, digestInput_eq]
  constructor
  · intro same
    obtain ⟨counts, frames⟩ := List.append_inj same (by simp)
    have count : first.name.length = second.name.length := Bytes.bigEndian_inj fits.count otherFits.count counts
    have counted : (first.name.components.map Component.bytes).length
        = (second.name.components.map Component.bytes).length := by
      simpa [Name.length] using count
    have framed := flatMap_framed_inj (by simp [parts, counted]) fits.parts otherFits.parts frames
    obtain ⟨spelled, others⟩ := List.append_inj framed counted
    obtain ⟨publisher, freshness, content⟩ : first.publisherField = second.publisherField ∧
        first.freshnessField = second.freshnessField ∧ first.content = second.content := by
      simpa using others
    have injective : ∀ component other : Component, component.bytes = other.bytes → component = other :=
      fun _ _ => congrArg Component.mk
    exact ⟨congrArg Name.mk ((List.map_inj_right injective).mp spelled), publisher, content, freshness⟩
  · rintro ⟨name, publisher, content, freshness⟩
    simp only [parts, name, publisher, content, freshness]

end SignedFields

namespace ContentObject

/-- An object as it can be made, with the fields that it is given. -/
inductive Built : SignedFields → ContentObject → Prop where
  | new (name : Name) (content : List UInt8) : Built ⟨name, none, content, none⟩ (.new name content)
  | published (name : Name) (publisher : Publisher) (content : List UInt8) :
      Built ⟨name, some publisher, content, none⟩ (.published name publisher content)
  | withHasher (name : Name) (publisher : Option Publisher) (content : List UInt8) (hasher : Hasher) :
      Built ⟨name, publisher, content, none⟩ (withHasher name publisher content hasher).1
  | withFreshness {fields : SignedFields} {object : ContentObject} (built : Built fields object)
      (freshness : Duration) (hasher : Hasher) :
      Built { fields with freshness := some freshness } (object.withFreshness freshness hasher).1

theorem ofFields_fst (fields : SignedFields) (hasher : Hasher) :
    (ofFields fields hasher).1 = ⟨fields, Sha256.hash fields.digestInput⟩ := by
  simp [ofFields, Hasher.finish]

theorem Built.eq {fields : SignedFields} {object : ContentObject} (built : Built fields object) :
    object = ⟨fields, Sha256.hash fields.digestInput⟩ := by
  induction built with
  | new => exact ofFields_fst _ _
  | published => exact ofFields_fst _ _
  | withHasher => exact ofFields_fst _ _
  | withFreshness _ freshness hasher ih =>
    rw [ih]
    exact ofFields_fst _ _

/-- What is hashed identifies an object, and its digest is the digest of that.
Whatever the hashers were fed before, two objects are hashed alike exactly if
they agree in their name, their publisher, their content and their freshness in
whole milliseconds. An object that was made in any of the ways there are has the
fields it was given last and the digest of them. -/
theorem digest_input_identifies_object :
    (∀ first second : SignedFields, first.Fits → second.Fits → ∀ hasher other : Hasher,
      ((first.feed hasher).absorbed = (second.feed other).absorbed ↔
        first.name = second.name ∧ first.publisher = second.publisher ∧ first.content = second.content ∧
          first.wholeMillis? = second.wholeMillis?)) ∧
    ∀ fields object, Built fields object →
      object.toSignedFields = fields ∧
        ∀ hasher : Hasher, object.digest = Sha256.hash (fields.feed hasher).absorbed := by
  refine ⟨fun first second fits otherFits hasher other => ?_, fun fields object built => ?_⟩
  · rw [SignedFields.absorbed_feed, SignedFields.absorbed_feed]
    exact SignedFields.digestInput_eq_iff fits otherFits
  · rw [built.eq]
    exact ⟨rfl, fun hasher => by rw [SignedFields.absorbed_feed]⟩

namespace Sample

def joined : SignedFields := ⟨.ofBytes [[0x61, 0x62]], none, [0x63], some (.ofMillis 5)⟩

def parted : SignedFields := { joined with name := .ofBytes [[0x61], [0x62]] }

def rounded : SignedFields := { joined with freshness := some ⟨0, ⟨5999999, by decide⟩⟩ }

end Sample

open ContentObject.Sample in
/-- Two names of the same bytes are hashed apart, whatever the hashers were fed
before, and a part of a millisecond is not hashed. -/
theorem names_of_same_bytes_are_hashed_apart :
    joined.Fits ∧ parted.Fits ∧ rounded.Fits ∧
      (∀ hasher other : Hasher, (joined.feed hasher).absorbed ≠ (parted.feed other).absorbed ∧
        (joined.feed hasher).absorbed = (rounded.feed other).absorbed) ∧
      ∀ hasher other : Hasher, ((new joined.name joined.content).withFreshness (.ofMillis 5) hasher).1.digest
        = Sha256.hash (joined.feed other).absorbed := by
  obtain ⟨identifies, digests⟩ := digest_input_identifies_object
  have fits : joined.Fits := ⟨by decide, by decide, by decide⟩
  have partedFits : parted.Fits := ⟨by decide, by decide, by decide⟩
  have roundedFits : rounded.Fits := ⟨by decide, by decide, by decide⟩
  refine ⟨fits, partedFits, roundedFits, fun hasher other => ⟨?_, ?_⟩, fun hasher => ?_⟩
  · rw [Ne, identifies joined parted fits partedFits]
    decide
  · rw [identifies joined rounded fits roundedFits]
    decide
  · exact (digests _ _ (.withFreshness (.new joined.name joined.content) (.ofMillis 5) hasher)).2

end ContentObject

end NamedContent
