import NamedContent.Digest.Hasher

/-! Publishers, known by the digest of their key. -/

set_option autoImplicit false

namespace NamedContent

/-- The digest of the key that a publisher signs with. -/
structure Publisher where
  digest : Digest
  deriving DecidableEq, Repr

namespace Publisher

def ofKey (key : List UInt8) (hasher : Hasher) : Publisher × Hasher :=
  let (digest, hasher) := (hasher.reset.update key).finish
  (⟨digest⟩, hasher)

def description (publisher : Publisher) : String := s!"PublisherDigest({publisher.digest.description})"

end Publisher

end NamedContent
