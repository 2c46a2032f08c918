import NamedContent.Bytes.BigEndian
import NamedContent.Name.Basic
import NamedContent.Time.Timestamp

/-! Numbered components: segments of a stream and versions of a name.

A marker byte is followed by the number in eight bytes, most significant
first. The width is fixed, so components of one kind are ordered as their
numbers are. -/

set_option autoImplicit false

namespace NamedContent

/-- What the number of a component counts. -/
inductive Numbering where
  | segment
  | version
  deriving DecidableEq, Repr

def Numbering.marker : Numbering → UInt8
  | .segment => 0x00
  | .version => 0xFD

namespace Component

def numbered (numbering : Numbering) (number : UInt64) : Component :=
  ⟨numbering.marker :: Bytes.bigEndian 8 number.toNat⟩

/-- The number a component carries: exactly eight bytes after the marker. -/
def number? (numbering : Numbering) (component : Component) : Option UInt64 :=
  match component.bytes with
  | [] => none
  | marker :: digits =>
    if marker = numbering.marker ∧ digits.length = 8 then some (UInt64.ofNat (Bytes.fromBigEndian digits))
    else none

def segment (number : UInt64) : Component := numbered .segment number

def segment? (component : Component) : Option UInt64 := number? .segment component

def version (stamp : Timestamp) : Component := numbered .version stamp.ms

end Component

namespace Name

def segment (stream : Name) (number : UInt64) : Name := stream.child (.segment number)

def segment? (name : Name) : Option UInt64 := name.last?.bind Component.segment?

def splitSegment? (name : Name) : Option (Name × UInt64) :=
  match name.segment?, name.parent? with
  | some number, some stream => some (stream, number)
  | _, _ => none

def stream? (name : Name) : Option Name := name.splitSegment?.map Prod.fst

def version (name : Name) (stamp : Timestamp) : Name := name.child (.version stamp)

/-- The innermost version in a name. -/
def version? (name : Name) : Option Timestamp :=
  (name.components.reverse.findSome? (Component.number? .version)).map Timestamp.mk

end Name

end NamedContent
