import NamedContent.Bytes.Hex
import NamedContent.Name.Basic
import NamedContent.Name.Malformed

/-! The text of a name.

Each component is written after a separator, with every byte outside the
unreserved set escaped. A component made of periods alone, the empty one
included, is written with three more periods, so that no written component is
empty or relative. The reader undoes both rules and also takes lower-case
escapes, unescaped bytes and one separator at the end. -/

set_option autoImplicit false

namespace NamedContent

namespace Component

/-- Letters, digits and `-`, `.`, `_`, `~` stand for themselves. -/
def isUnreserved (byte : UInt8) : Bool :=
  let c := Char.ofNat byte.toNat
  c.isAlphanum || c == '-' || c == '.' || c == '_' || c == '~'

def escapeByte (byte : UInt8) : List Char :=
  if isUnreserved byte then [Char.ofNat byte.toNat] else '%' :: Bytes.Hex.pair 'A' byte

def period : UInt8 := 0x2E

/-- Whether all bytes are periods, as they are in the empty component. -/
def isPeriods (component : Component) : Bool := component.bytes.all (· == period)

def chars (component : Component) : List Char :=
  component.bytes.flatMap escapeByte ++ if component.isPeriods then ['.', '.', '.'] else []

def text (component : Component) : String := String.ofList component.chars

def unescape : List Char → Option (List UInt8)
  | [] => some []
  | '%' :: high :: low :: rest =>
    match Bytes.Hex.byte? high low, unescape rest with
    | some byte, some bytes => some (byte :: bytes)
    | _, _ => none
  | c :: rest => if c = '%' then none else (unescape rest).map (String.utf8EncodeChar c ++ ·)

/-- Reads the piece at a position. Only periods written literally count as
periods; an escaped one is a plain byte. -/
def ofPiece (position : Nat) (piece : List Char) : Except Malformed Component :=
  if piece.isEmpty then .error (.emptyComponent position)
  else
    match unescape piece with
    | none => .error (.invalidEscape position)
    | some bytes =>
      if piece.all (· == '.') then
        if piece.length < 3 then .error (.relativeComponent position)
        else .ok ⟨bytes.take (piece.length - 3)⟩
      else .ok ⟨bytes⟩

end Component

namespace Name

def separator : Char := '/'

def chars (name : Name) : List Char :=
  name.components.flatMap fun component => separator :: component.chars

def text (name : Name) : String := String.ofList name.chars

instance : ToString Name := ⟨text⟩

def description (name : Name) : String :=
  if name.isRoot then "Name(/)" else s!"Name({name})"

/-- The pieces between separators, one more than there are separators. -/
def pieces : List Char → List (List Char)
  | [] => [[]]
  | c :: rest =>
    if c = separator then [] :: pieces rest
    else
      match pieces rest with
      | [] => [[c]]
      | piece :: others => (c :: piece) :: others

/-- Drops one separator at the end, unless nothing stands before it. -/
def withoutTrailingSeparator (chars : List Char) : List Char :=
  if chars.getLast? = some separator ∧ chars.dropLast ≠ [] then chars.dropLast else chars

def componentsOfPieces (position : Nat) : List (List Char) → Except Malformed (List Component)
  | [] => .ok []
  | piece :: rest =>
    match Component.ofPiece position piece with
    | .error fault => .error fault
    | .ok component =>
      match componentsOfPieces (position + 1) rest with
      | .error fault => .error fault
      | .ok components => .ok (component :: components)

def ofChars : List Char → Except Malformed Name
  | [] => .ok root
  | c :: rest =>
    if c ≠ separator then .error .missingSeparator
    else
      match withoutTrailingSeparator rest with
      | [] => .ok root
      | chars =>
        match componentsOfPieces 0 (pieces chars) with
        | .error fault => .error fault
        | .ok components => .ok ⟨components⟩

def ofText (text : String) : Except Malformed Name := ofChars text.toList

end Name

end NamedContent
