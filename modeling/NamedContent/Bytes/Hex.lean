/-! Bytes as pairs of hexadecimal digits.

Digits are read in either case; the writer chooses the case of its letters by
naming the letter for ten. -/

set_option autoImplicit false

namespace NamedContent.Bytes.Hex

/-- The digit for a number below sixteen; `ten` is the letter for ten. -/
def digit (ten : Char) (number : Nat) : Char :=
  if number < 10 then Char.ofNat ('0'.toNat + number) else Char.ofNat (ten.toNat + (number - 10))

def value? (c : Char) : Option Nat :=
  if '0' ≤ c ∧ c ≤ '9' then some (c.toNat - '0'.toNat)
  else if 'a' ≤ c ∧ c ≤ 'f' then some (c.toNat - 'a'.toNat + 10)
  else if 'A' ≤ c ∧ c ≤ 'F' then some (c.toNat - 'A'.toNat + 10)
  else none

def pair (ten : Char) (byte : UInt8) : List Char :=
  [digit ten (byte.toNat / 16), digit ten (byte.toNat % 16)]

def byte? (high low : Char) : Option UInt8 :=
  match value? high, value? low with
  | some high, some low => some (UInt8.ofNat (16 * high + low))
  | _, _ => none

def text (bytes : List UInt8) : String :=
  String.ofList (bytes.flatMap (pair 'a'))

def bytes? : List Char → Option (List UInt8)
  | [] => some []
  | high :: low :: rest =>
    match byte? high low, bytes? rest with
    | some byte, some bytes => some (byte :: bytes)
    | _, _ => none
  | [_] => none

theorem value?_digit {number : Nat} (small : number < 16) : value? (digit 'A' number) = some number := by
  have digits : ∀ number < 16, value? (digit 'A' number) = some number := by decide
  exact digits number small

theorem digit_ne {number : Nat} {c : Char} (small : number < 16) (other : value? c = none) : digit 'A' number ≠ c := by
  rintro rfl
  rw [value?_digit small] at other
  exact absurd other (by simp)

theorem byte?_pair (byte : UInt8) :
    byte? (digit 'A' (byte.toNat / 16)) (digit 'A' (byte.toNat % 16)) = some byte := by
  have bound := byte.toNat_lt
  have high : byte.toNat / 16 < 16 := by omega
  have low : byte.toNat % 16 < 16 := Nat.mod_lt _ (by decide)
  simp [byte?, value?_digit high, value?_digit low, Nat.div_add_mod]

end NamedContent.Bytes.Hex
