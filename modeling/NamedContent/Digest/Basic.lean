import NamedContent.Bytes.Hex

/-! Digests of byte strings. -/

set_option autoImplicit false

namespace NamedContent

/-- Thirty-two bytes that stand for a longer byte string. -/
structure Digest where
  bytes : Vector UInt8 32
  deriving DecidableEq, Repr

namespace Digest

def toList (digest : Digest) : List UInt8 := digest.bytes.toList

def ofList? (bytes : List UInt8) : Option Digest :=
  if width : bytes.length = 32 then some ⟨⟨bytes.toArray, by simpa using width⟩⟩ else none

def description (digest : Digest) : String := Bytes.Hex.text (digest.toList.take 8) ++ ".."

@[simp] theorem length_toList (digest : Digest) : digest.toList.length = 32 := by
  simp [toList]

end Digest

end NamedContent
