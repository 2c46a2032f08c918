import NamedContent.Content.Publisher
import NamedContent.Name.Text
import NamedContent.Time.Duration

/-! Named, immutable content.

An object carries the digest of its fields. The bytes that are hashed start
with the number of name components; every field that follows is framed, and an
absent one is an empty frame, so the bytes determine the fields. -/

set_option autoImplicit false

namespace NamedContent

/-- The fields of an object that its digest covers. -/
structure SignedFields where
  name : Name
  publisher : Option Publisher
  content : List UInt8
  /-- How long caches may keep serving the object; without it there is no limit. -/
  freshness : Option Duration
  deriving DecidableEq, Repr

namespace SignedFields

def publisherField (fields : SignedFields) : List UInt8 :=
  match fields.publisher with
  | some publisher => publisher.digest.toList
  | none => []

/-- The freshness as hashed, in whole milliseconds. -/
def freshnessField (fields : SignedFields) : List UInt8 :=
  match fields.freshness with
  | some freshness => Bytes.bigEndian 8 freshness.millis.toNat
  | none => []

def digestInput (fields : SignedFields) : List UInt8 :=
  Bytes.bigEndian 8 fields.name.length
    ++ fields.name.components.flatMap (fun component => framed component.bytes)
    ++ framed fields.publisherField ++ framed fields.freshnessField ++ framed fields.content

/-- Feeds the fields to a hasher, forgetting what it was fed before. -/
def feed (fields : SignedFields) (hasher : Hasher) : Hasher :=
  let counted := hasher.reset.update (Bytes.bigEndian 8 fields.name.length)
  let named := fields.name.components.foldl (fun hasher component => hasher.updateFramed component.bytes) counted
  ((named.updateFramed fields.publisherField).updateFramed fields.freshnessField).updateFramed fields.content

theorem absorbed_foldl_updateFramed (components : List Component) (hasher : Hasher) :
    (components.foldl (fun hasher component => hasher.updateFramed component.bytes) hasher).absorbed
      = hasher.absorbed ++ components.flatMap (fun component => framed component.bytes) := by
  induction components generalizing hasher with
  | nil => simp
  | cons component rest ih => simp [ih]

@[simp] theorem absorbed_feed (fields : SignedFields) (hasher : Hasher) :
    (fields.feed hasher).absorbed = fields.digestInput := by
  simp [feed, digestInput, absorbed_foldl_updateFramed]

end SignedFields

structure ContentObject extends SignedFields where
  digest : Digest
  deriving DecidableEq, Repr

namespace ContentObject

/-- The object with the given fields. The hasher may have been fed before. -/
def ofFields (fields : SignedFields) (hasher : Hasher) : ContentObject × Hasher :=
  let (digest, hasher) := (fields.feed hasher).finish
  ({ toSignedFields := fields, digest := digest }, hasher)

def withHasher (name : Name) (publisher : Option Publisher) (content : List UInt8) (hasher : Hasher) :
    ContentObject × Hasher :=
  ofFields { name := name, publisher := publisher, content := content, freshness := none } hasher

def withFreshness (object : ContentObject) (freshness : Duration) (hasher : Hasher) : ContentObject × Hasher :=
  ofFields { object.toSignedFields with freshness := some freshness } hasher

def new (name : Name) (content : List UInt8) : ContentObject := (withHasher name none content .new).1

def published (name : Name) (publisher : Publisher) (content : List UInt8) : ContentObject :=
  (withHasher name (some publisher) content .new).1

def fullName (object : ContentObject) : Name := object.name.child ⟨object.digest.toList⟩

def description (object : ContentObject) : String :=
  let publisher := match object.publisher with
    | some publisher => s!"Some({publisher.description})"
    | none => "None"
  let freshness := match object.freshness with
    | some freshness => s!"Some({freshness.text})"
    | none => "None"
  "ContentObject \x7b name: " ++ object.name.description ++ ", publisher: " ++ publisher
    ++ ", content_len: " ++ toString object.content.length ++ ", freshness: " ++ freshness
    ++ ", digest: " ++ object.digest.description ++ " \x7d"

end ContentObject

end NamedContent
