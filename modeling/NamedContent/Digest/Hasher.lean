import NamedContent.Digest.Sha256

/-! A hasher that takes its message in parts.

A framed part is preceded by its length, so that adjacent parts cannot run
into each other. Of the hash itself nothing is used but that it is a function of
the bytes fed. -/

set_option autoImplicit false

namespace NamedContent

/-- A part preceded by its length in eight bytes. -/
def framed (part : List UInt8) : List UInt8 := Bytes.bigEndian 8 part.length ++ part

/-- What has been fed to a hasher since it was new or last reset. -/
structure Hasher where
  absorbed : List UInt8
  deriving DecidableEq, Repr

namespace Hasher

def new : Hasher := ⟨[]⟩

def reset (_ : Hasher) : Hasher := new

def update (hasher : Hasher) (part : List UInt8) : Hasher := ⟨hasher.absorbed ++ part⟩

def updateFramed (hasher : Hasher) (part : List UInt8) : Hasher :=
  (hasher.update (Bytes.bigEndian 8 part.length)).update part

def finish (hasher : Hasher) : Digest × Hasher := (Sha256.hash hasher.absorbed, new)

@[simp] theorem absorbed_new : new.absorbed = [] := rfl

@[simp] theorem absorbed_reset (hasher : Hasher) : hasher.reset.absorbed = [] := rfl

@[simp] theorem absorbed_update (hasher : Hasher) (part : List UInt8) :
    (hasher.update part).absorbed = hasher.absorbed ++ part := rfl

@[simp] theorem absorbed_updateFramed (hasher : Hasher) (part : List UInt8) :
    (hasher.updateFramed part).absorbed = hasher.absorbed ++ framed part := by
  simp [updateFramed, framed]

end Hasher

end NamedContent
