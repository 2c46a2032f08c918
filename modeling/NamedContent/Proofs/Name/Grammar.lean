import Mathlib.Data.List.Forall2
import NamedContent.Proofs.Name.Text

/-! Which texts are names.

A text is a name if it is empty or a separator alone, or if it is pieces that
each follow a separator, with at most one more separator at the end. A piece has
to be present, to have two digits after every percent sign, and not to be one or
two periods. The reader takes these texts and no others, and faults any other
text for its first bad piece. -/

set_option autoImplicit false

namespace NamedContent

namespace Component

def lowerDigits : List Char := ['0', '1', '2', '3', '4', '5', '6', '7', '8', '9', 'a', 'b', 'c', 'd', 'e', 'f']

def Spells (c : Char) (number : Nat) : Prop :=
  lowerDigits[number]? = some c ∨ (lowerDigits.map Char.toUpper)[number]? = some c

/-- Whether every percent sign has two digits after it. -/
def Escapes (piece : List Char) : Prop :=
  ∀ after, '%' :: after <:+ piece →
    ∃ high low rest upper lower, after = high :: low :: rest ∧ Spells high upper ∧ Spells low lower

/-- Percent-decoding: a percent sign and two digits are a byte, and any other
character is the bytes that encode it. -/
inductive Decodes : List Char → List UInt8 → Prop where
  | nil : Decodes [] []
  | escape {high low : Char} {upper lower : Nat} {rest : List Char} {bytes : List UInt8} (first : Spells high upper)
      (second : Spells low lower) (later : Decodes rest bytes) :
      Decodes ('%' :: high :: low :: rest) (UInt8.ofNat (16 * upper + lower) :: bytes)
  | plain {c : Char} {rest : List Char} {bytes : List UInt8} (other : c ≠ '%') (later : Decodes rest bytes) :
      Decodes (c :: rest) (String.utf8EncodeChar c ++ bytes)

structure Sound (piece : List Char) : Prop where
  present : piece ≠ []
  escapes : Escapes piece
  absolute : piece ≠ ['.'] ∧ piece ≠ ['.', '.']

/-- What a piece stands for: for three periods less if it is at least three of
them and nothing else, and else for what it decodes to. -/
def Yields (piece : List Char) (component : Component) : Prop :=
  (∃ count, piece = List.replicate (count + 3) '.' ∧ component.bytes = List.replicate count period) ∨
    (∀ count, piece ≠ List.replicate (count + 3) '.') ∧ Decodes piece component.bytes

inductive Faulty (position : Nat) (piece : List Char) : Malformed → Prop where
  | empty (absent : piece = []) : Faulty position piece (.emptyComponent position)
  | escape (incomplete : ¬ Escapes piece) : Faulty position piece (.invalidEscape position)
  | relative (periods : piece = ['.'] ∨ piece = ['.', '.']) : Faulty position piece (.relativeComponent position)

theorem Faulty.not_sound {position : Nat} {piece : List Char} {fault : Malformed}
    (faulty : Faulty position piece fault) : ¬ Sound piece := by
  intro sound
  cases faulty with
  | empty absent => exact sound.present absent
  | escape incomplete => exact incomplete sound.escapes
  | relative periods => exact periods.elim sound.absolute.1 sound.absolute.2

theorem toNat_lt_of_value? {c : Char} {number : Nat} (read : Bytes.Hex.value? c = some number) : c.toNat < 128 := by
  have within : ∀ last : Char, last.toNat < 128 → c ≤ last → c.toNat < 128 := fun last bound below =>
    Nat.lt_of_le_of_lt (UInt32.le_iff_toNat_le.mp below) bound
  unfold Bytes.Hex.value? at read
  split at read
  · rename_i range
    exact within '9' (by decide) range.2
  split at read
  · rename_i range
    exact within 'f' (by decide) range.2
  split at read
  · rename_i range
    exact within 'F' (by decide) range.2
  · exact absurd read (by simp)

theorem value?_of_getElem? {digits : List Char} {c : Char} {number : Nat}
    (reads : ∀ number < digits.length, digits[number]?.all (Bytes.Hex.value? · == some number) = true)
    (found : digits[number]? = some c) : Bytes.Hex.value? c = some number := by
  have here := reads number (List.getElem?_eq_some_iff.mp found).1
  rw [found] at here
  simpa using here

theorem value?_eq_some_iff {c : Char} {number : Nat} : Bytes.Hex.value? c = some number ↔ Spells c number := by
  constructor
  · intro read
    have spelled : ∀ code < 128, (Bytes.Hex.value? (Char.ofNat code)).all (fun number =>
        lowerDigits[number]? == some (Char.ofNat code) ||
          (lowerDigits.map Char.toUpper)[number]? == some (Char.ofNat code)) = true := by decide +kernel
    have here := spelled c.toNat (toNat_lt_of_value? read)
    rw [Char.ofNat_toNat, read] at here
    simpa [Spells] using here
  · rintro (lower | upper)
    · exact value?_of_getElem? (by decide) lower
    · exact value?_of_getElem? (by decide) upper

theorem byte?_eq_some_iff {high low : Char} {byte : UInt8} :
    Bytes.Hex.byte? high low = some byte ↔
      ∃ upper lower, Spells high upper ∧ Spells low lower ∧ byte = UInt8.ofNat (16 * upper + lower) := by
  simp only [← value?_eq_some_iff, Bytes.Hex.byte?]
  cases Bytes.Hex.value? high with
  | none => simp
  | some upper =>
    cases Bytes.Hex.value? low with
    | none => simp
    | some lower => simp [eq_comm]

theorem unescape_eq_some_iff {piece : List Char} {bytes : List UInt8} :
    unescape piece = some bytes ↔ Decodes piece bytes := by
  constructor
  · intro read
    fun_induction unescape piece generalizing bytes with
    | case1 =>
      obtain rfl : [] = bytes := Option.some.inj read
      exact .nil
    | case2 high low rest byte later decoded spelled ih =>
      obtain rfl : byte :: later = bytes := Option.some.inj read
      obtain ⟨upper, lower, first, second, rfl⟩ := byte?_eq_some_iff.mp spelled
      exact .escape first second (ih decoded)
    | case5 c rest _ plain ih =>
      obtain ⟨later, decoded, rfl⟩ := Option.map_eq_some_iff.mp read
      exact .plain plain (ih decoded)
    | _ => exact absurd read (by simp)
  · intro decodes
    induction decodes with
    | nil => rfl
    | escape first second _ ih => rw [unescape, byte?_eq_some_iff.mpr ⟨_, _, first, second, rfl⟩, ih]
    | plain other _ ih => rw [unescape_cons_of_ne other, ih, Option.map_some]

theorem Escapes.of_suffix {piece rest : List Char} (escapes : Escapes piece) (later : rest <:+ piece) : Escapes rest :=
  fun after found => escapes after (found.trans later)

theorem Spells.ne {c : Char} {number : Nat} (spelled : Spells c number) : '%' ≠ c := by
  rintro rfl
  have outside : Bytes.Hex.value? '%' = none := by decide
  exact absurd (outside.symm.trans (value?_eq_some_iff.mpr spelled)) (by simp)

-- A piece can be decoded exactly if every percent sign in it has its digits. The
-- digits are no percent signs, so the decoder meets all of these.
theorem escapes_iff {piece : List Char} : Escapes piece ↔ ∃ bytes, Decodes piece bytes := by
  constructor
  · intro escapes
    simp only [← unescape_eq_some_iff]
    fun_induction unescape piece with
    | case1 => exact ⟨_, rfl⟩
    | case2 high low rest byte later decoded spelled ih => exact ⟨_, rfl⟩
    | case3 high low rest fails ih =>
      obtain ⟨_, _, _, upper, lower, ⟨⟩, first, second⟩ := escapes _ List.suffix_rfl
      obtain ⟨bytes, decoded⟩ := ih (escapes.of_suffix (List.suffix_append ['%', high, low] rest))
      exact (fails _ bytes (byte?_eq_some_iff.mpr ⟨upper, lower, first, second, rfl⟩) decoded).elim
    | case4 rest short =>
      obtain ⟨high, low, later, _, _, same, -⟩ := escapes _ List.suffix_rfl
      exact absurd same (short high low later rfl)
    | case5 c rest _ plain ih =>
      obtain ⟨bytes, decoded⟩ := ih (escapes.of_suffix (List.suffix_cons c rest))
      exact ⟨_, Option.map_eq_some_iff.mpr ⟨bytes, decoded, rfl⟩⟩
  · rintro ⟨bytes, decodes⟩
    induction decodes with
    | nil => exact fun after found => absurd (List.suffix_nil.mp found) (by simp)
    | escape first second _ ih =>
      intro after found
      rcases List.suffix_cons_iff.mp found with same | found
      · obtain rfl := (List.cons.inj same).2
        exact ⟨_, _, _, _, _, rfl, first, second⟩
      rcases List.suffix_cons_iff.mp found with same | found
      · exact absurd (List.cons.inj same).1 first.ne
      rcases List.suffix_cons_iff.mp found with same | found
      · exact absurd (List.cons.inj same).1 second.ne
      · exact ih after found
    | plain other _ ih =>
      intro after found
      rcases List.suffix_cons_iff.mp found with same | found
      · exact absurd (List.cons.inj same).1.symm other
      · exact ih after found

/-! Reading one piece. -/

theorem decodes_replicate (count : Nat) : Decodes (List.replicate count '.') (List.replicate count period) := by
  induction count with
  | zero => exact .nil
  | succ count ih => exact Decodes.plain (by decide) ih

theorem ofPiece_replicate (position count : Nat) :
    ofPiece position (List.replicate (count + 3) '.') = .ok ⟨List.replicate count period⟩ := by
  have decoded := unescape_eq_some_iff.mpr (decodes_replicate (count + 3))
  have present : (List.replicate (count + 3) '.').isEmpty = false := by simp
  rw [ofPiece, present, decoded]
  simp

theorem ofPiece_of_other {piece : List Char} (position : Nat) (present : piece ≠ [])
    (other : ∀ count, piece ≠ List.replicate count '.') :
    ofPiece position piece
      = match unescape piece with
        | none => .error (.invalidEscape position)
        | some bytes => .ok ⟨bytes⟩ := by
  have mixed : piece.all (· == '.') = false := by
    refine Bool.eq_false_iff.mpr fun periods => other piece.length (List.eq_replicate_of_mem fun c member => ?_)
    simpa using List.all_eq_true.mp periods c member
  rw [ofPiece, List.isEmpty_eq_false_iff.mpr present, mixed]
  cases unescape piece <;> rfl

theorem ofPiece_cases (position : Nat) (piece : List Char) :
    (∃ component, ofPiece position piece = .ok component ∧ Sound piece ∧ Yields piece component) ∨
      ∃ fault, ofPiece position piece = .error fault ∧ Faulty position piece fault := by
  by_cases literal : ∃ count, piece = List.replicate count '.'
  · obtain ⟨count, rfl⟩ := literal
    match count with
    | 0 => exact Or.inr ⟨_, rfl, .empty rfl⟩
    | 1 => exact Or.inr ⟨_, rfl, .relative (Or.inl rfl)⟩
    | 2 => exact Or.inr ⟨_, rfl, .relative (Or.inr rfl)⟩
    | count + 3 =>
      have escapes := escapes_iff.mpr ⟨_, decodes_replicate (count + 3)⟩
      have longer : ∀ size < 3, List.replicate (count + 3) '.' ≠ List.replicate size '.' := fun size small same => by
        have lengths := congrArg List.length same
        simp at lengths
        omega
      exact Or.inl ⟨_, ofPiece_replicate position count,
        ⟨longer 0 (by decide), escapes, longer 1 (by decide), longer 2 (by decide)⟩, Or.inl ⟨count, rfl, rfl⟩⟩
  · have other : ∀ count, piece ≠ List.replicate count '.' := not_exists.mp literal
    rw [ofPiece_of_other position (other 0) other]
    cases read : unescape piece with
    | none =>
      refine Or.inr ⟨_, rfl, .escape fun escapes => ?_⟩
      obtain ⟨bytes, decodes⟩ := escapes_iff.mp escapes
      exact absurd (read.symm.trans (unescape_eq_some_iff.mpr decodes)) (by simp)
    | some bytes =>
      have decodes := unescape_eq_some_iff.mp read
      exact Or.inl ⟨_, rfl, ⟨other 0, escapes_iff.mpr ⟨bytes, decodes⟩, other 1, other 2⟩,
        Or.inr ⟨fun count => other (count + 3), decodes⟩⟩

theorem Yields.unique {piece : List Char} {first second : Component} (yields : Yields piece first)
    (again : Yields piece second) : first = second := by
  obtain ⟨bytes⟩ := first
  obtain ⟨others⟩ := second
  rcases yields with ⟨count, rfl, same⟩ | ⟨other, decodes⟩
  · rcases again with ⟨size, lengths, rest⟩ | ⟨other, -⟩
    · obtain rfl : count = size := by simpa using congrArg List.length lengths
      exact congrArg Component.mk (same.trans rest.symm)
    · exact absurd rfl (other count)
  · rcases again with ⟨size, literal, -⟩ | ⟨-, decodesAgain⟩
    · exact absurd literal (other size)
    · have read := unescape_eq_some_iff.mpr decodes
      exact congrArg Component.mk (Option.some.inj (read.symm.trans (unescape_eq_some_iff.mpr decodesAgain)))

theorem ofPiece_eq_ok_iff {position : Nat} {piece : List Char} {component : Component} :
    ofPiece position piece = .ok component ↔ Sound piece ∧ Yields piece component := by
  rcases ofPiece_cases position piece with ⟨found, read, sound, yields⟩ | ⟨fault, read, faulty⟩
  · rw [read, Except.ok.injEq]
    constructor
    · rintro rfl
      exact ⟨sound, yields⟩
    · rintro ⟨-, again⟩
      exact yields.unique again
  · rw [read]
    exact iff_of_false (by simp) fun held => faulty.not_sound held.1

theorem faulty_of_ofPiece {position : Nat} {piece : List Char} {fault : Malformed}
    (read : ofPiece position piece = .error fault) : Faulty position piece fault := by
  rcases ofPiece_cases position piece with ⟨found, succeeded, -⟩ | ⟨other, failed, faulty⟩
  · exact absurd (read.symm.trans succeeded) (by simp)
  · rwa [Except.error.inj (read.symm.trans failed)]

end Component

namespace Name

open Component

/-- Whether a text is pieces that each follow a separator, with at most one more separator at the end. -/
def Divides (parts : List (List Char)) (text : List Char) : Prop :=
  parts ≠ [] ∧ (∀ piece ∈ parts, separator ∉ piece) ∧
    (text = parts.flatMap (separator :: ·) ∨ text = parts.flatMap (separator :: ·) ++ [separator])

def FirstFault (parts : List (List Char)) (fault : Malformed) : Prop :=
  ∃ before piece after, parts = before ++ piece :: after ∧ (∀ earlier ∈ before, Sound earlier) ∧
    Faulty before.length piece fault

theorem componentsOfPieces_eq_ok_iff {position : Nat} {parts : List (List Char)} {components : List Component} :
    componentsOfPieces position parts = .ok components ↔
      (∀ piece ∈ parts, Sound piece) ∧ List.Forall₂ Yields parts components := by
  induction parts generalizing position components with
  | nil => simp [componentsOfPieces, eq_comm]
  | cons piece rest ih =>
    rw [List.forall_mem_cons, List.forall₂_cons_left_iff]
    cases read : ofPiece position piece with
    | error fault =>
      have faulty := faulty_of_ofPiece read
      simp only [componentsOfPieces, read]
      exact iff_of_false (by simp) fun held => faulty.not_sound held.1.1
    | ok component =>
      obtain ⟨sound, yields⟩ := ofPiece_eq_ok_iff.mp read
      simp only [componentsOfPieces, read]
      constructor
      · intro succeeded
        rcases later : componentsOfPieces (position + 1) rest with fault | others
        · simp [later] at succeeded
        · simp only [later, Except.ok.injEq] at succeeded
          obtain ⟨sounds, each⟩ := ih.mp later
          exact ⟨⟨sound, sounds⟩, component, others, yields, each, succeeded.symm⟩
      · rintro ⟨⟨-, sounds⟩, other, others, yieldsOther, each, rfl⟩
        rw [ih.mpr ⟨sounds, each⟩, yields.unique yieldsOther]

theorem firstFault_of_componentsOfPieces {position : Nat} {parts : List (List Char)} {fault : Malformed}
    (read : componentsOfPieces position parts = .error fault) :
    ∃ before piece after, parts = before ++ piece :: after ∧ (∀ earlier ∈ before, Sound earlier) ∧
      Faulty (position + before.length) piece fault := by
  induction parts generalizing position with
  | nil => exact absurd read (by simp [componentsOfPieces])
  | cons piece rest ih =>
    rcases here : ofPiece position piece with found | component
    · simp only [componentsOfPieces, here, Except.error.injEq] at read
      exact ⟨[], piece, rest, rfl, by simp, read ▸ faulty_of_ofPiece here⟩
    · simp only [componentsOfPieces, here] at read
      rcases later : componentsOfPieces (position + 1) rest with other | components
      · simp only [later, Except.error.injEq] at read
        obtain ⟨before, bad, after, rfl, sound, faulty⟩ := ih (read ▸ later)
        refine ⟨piece :: before, bad, after, rfl, ?_, ?_⟩
        · exact List.forall_mem_cons.mpr ⟨(ofPiece_eq_ok_iff.mp here).1, sound⟩
        · rwa [List.length_cons, Nat.add_comm before.length, ← Nat.add_assoc]
      · simp [later] at read

/-! The pieces that a text divides into. -/

theorem pieces_ne_nil (text : List Char) : pieces text ≠ [] := by
  cases text with
  | nil => simp [pieces]
  | cons c rest =>
    rw [pieces]
    split
    · simp
    · split <;> simp

theorem exists_pieces_cons {c : Char} (other : c ≠ separator) (rest : List Char) :
    ∃ piece others, pieces rest = piece :: others ∧ pieces (c :: rest) = (c :: piece) :: others := by
  cases parted : pieces rest with
  | nil => exact absurd parted (pieces_ne_nil rest)
  | cons piece others => exact ⟨piece, others, rfl, by rw [pieces, if_neg other, parted]⟩

theorem pieces_concat_separator (text : List Char) : pieces (text ++ [separator]) = pieces text ++ [[]] := by
  induction text with
  | nil => rfl
  | cons c rest ih =>
    by_cases separates : c = separator
    · simp [pieces, separates, ih]
    · obtain ⟨piece, others, parted, extended⟩ := exists_pieces_cons separates rest
      rw [extended, List.cons_append, pieces, if_neg separates, ih, parted]
      rfl

-- A separator before each piece gives the text back.
theorem pieces_spec (text : List Char) :
    (∀ piece ∈ pieces text, separator ∉ piece) ∧ separator :: text = (pieces text).flatMap (separator :: ·) := by
  induction text with
  | nil => simp [pieces]
  | cons c rest ih =>
    obtain ⟨whole, joined⟩ := ih
    by_cases separates : c = separator
    · have parted : pieces (c :: rest) = [] :: pieces rest := by rw [pieces, if_pos separates]
      rw [parted, List.forall_mem_cons, List.flatMap_cons, ← joined, separates]
      exact ⟨⟨List.not_mem_nil, whole⟩, rfl⟩
    · obtain ⟨piece, others, parted, extended⟩ := exists_pieces_cons separates rest
      rw [parted, List.flatMap_cons, List.cons_append, List.cons.injEq] at joined
      rw [parted, List.forall_mem_cons] at whole
      rw [extended, List.forall_mem_cons, List.flatMap_cons, joined.2]
      exact ⟨⟨List.not_mem_cons_of_ne_of_not_mem (Ne.symm separates) whole.1, whole.2⟩, rfl⟩

theorem Divides.pieces_eq {parts : List (List Char)} {rest : List Char} (divides : Divides parts (separator :: rest)) :
    pieces rest = parts ∨ pieces rest = parts ++ [[]] := by
  obtain ⟨present, whole, same⟩ := divides
  cases parts with
  | nil => exact absurd rfl present
  | cons first others =>
    rw [List.flatMap_cons, List.cons_append, List.cons_append, List.cons.injEq, List.cons.injEq] at same
    rcases same with ⟨-, rfl⟩ | ⟨-, rfl⟩
    · exact Or.inl (pieces_flatMap whole)
    · rw [pieces_concat_separator, pieces_flatMap whole]
      exact Or.inr rfl

def taken (rest : List Char) : List (List Char) := pieces (withoutTrailingSeparator rest)

theorem taken_cases {rest : List Char} (present : rest ≠ []) :
    rest.getLast? ≠ some separator ∧ taken rest = pieces rest ∨ pieces rest = taken rest ++ [[]] ∨
      rest = [separator] ∧ taken rest = [[], []] := by
  by_cases ends : rest.getLast? = some separator
  · obtain ⟨front, rfl⟩ := List.getLast?_eq_some_iff.mp ends
    refine Or.inr ?_
    cases front with
    | nil => exact Or.inr ⟨rfl, rfl⟩
    | cons c front =>
      have shorter : (c :: front ++ [separator]).dropLast = c :: front := List.dropLast_concat
      exact Or.inl (by rw [taken, withoutTrailingSeparator, shorter, if_pos ⟨ends, by simp⟩, pieces_concat_separator])
  · exact Or.inl ⟨ends, by rw [taken, withoutTrailingSeparator, if_neg fun held => ends held.1]⟩

theorem ofChars_separator {rest : List Char} (present : rest ≠ []) :
    ofChars (separator :: rest) = (componentsOfPieces 0 (taken rest)).map Name.mk := by
  have trimmed : withoutTrailingSeparator rest ≠ [] := by
    unfold withoutTrailingSeparator
    split
    · rename_i held
      exact held.2
    · exact present
  rw [ofChars, if_neg (by simp), taken]
  split
  · rename_i nothing
    exact absurd nothing trimmed
  · cases componentsOfPieces 0 (pieces (withoutTrailingSeparator rest)) <;> rfl

-- A text of more than a separator is divided into the pieces that are read, and
-- otherwise only as far as an empty piece at the end counts.
theorem divides_taken {rest : List Char} (present : rest ≠ []) : Divides (taken rest) (separator :: rest) := by
  obtain ⟨whole, joined⟩ := pieces_spec rest
  rcases taken_cases present with ⟨-, same⟩ | longer | ⟨rfl, same⟩
  · exact ⟨pieces_ne_nil _, same ▸ whole, Or.inl (same ▸ joined)⟩
  · rw [longer, List.forall_mem_append] at whole
    rw [longer, List.flatMap_append] at joined
    exact ⟨pieces_ne_nil _, whole.1, Or.inr joined⟩
  · exact ⟨pieces_ne_nil _, same ▸ whole, Or.inl (same ▸ joined)⟩

theorem Divides.cases {parts : List (List Char)} {rest : List Char} (divides : Divides parts (separator :: rest))
    (present : rest ≠ []) :
    parts = taken rest ∨ parts = taken rest ++ [[]] ∨ parts = [[]] ∧ taken rest = [[], []] := by
  rcases taken_cases present with ⟨ends, same⟩ | longer | ⟨rfl, same⟩
  · rcases divides.pieces_eq with read | read
    · exact Or.inl (read.symm.trans same.symm)
    · have joined := (pieces_spec rest).2
      rw [read, List.flatMap_append] at joined
      have last : (separator :: rest).getLast? = some separator := by simp [joined]
      obtain ⟨c, others, rfl⟩ := List.exists_cons_of_ne_nil present
      exact absurd (List.getLast?_cons_cons.symm.trans last) ends
  · rcases divides.pieces_eq with read | read
    · exact Or.inr (Or.inl (read.symm.trans longer))
    · exact Or.inl (List.append_cancel_right (read.symm.trans longer))
  · rcases divides.pieces_eq with read | read
    · exact Or.inl (read.symm.trans same.symm)
    · have shorter : parts ++ [[]] = [[]] ++ [[]] := read.symm
      exact Or.inr (Or.inr ⟨List.append_cancel_right shorter, same⟩)

theorem Divides.head {parts : List (List Char)} {text : List Char} (divides : Divides parts text) :
    text.head? = some separator := by
  obtain ⟨present, -, same⟩ := divides
  obtain ⟨first, others, rfl⟩ := List.exists_cons_of_ne_nil present
  rcases same with rfl | rfl <;> rfl

-- The division into sound pieces is the one that is read.
theorem Divides.eq_taken {parts : List (List Char)} {rest : List Char} (divides : Divides parts (separator :: rest))
    (sound : ∀ piece ∈ parts, Sound piece) : rest ≠ [] ∧ parts = taken rest := by
  have whole : [] ∉ parts := fun member => (sound [] member).present rfl
  by_cases present : rest = []
  · subst present
    rcases divides.pieces_eq with read | read
    · exact absurd (read ▸ List.mem_singleton.mpr rfl : [] ∈ parts) whole
    · have shorter : parts ++ [[]] = [] ++ [[]] := read.symm
      exact absurd (List.append_cancel_right shorter) divides.1
  · refine ⟨present, ?_⟩
    rcases divides.cases present with same | rfl | ⟨rfl, -⟩
    · exact same
    · exact absurd (by simp) whole
    · exact absurd (by simp) whole

/-! Reading a text. -/

theorem ofChars_eq_ok_iff {text : List Char} {name : Name} :
    ofChars text = .ok name ↔
      (text = [] ∨ text = [separator]) ∧ name = root ∨
      ∃ parts, Divides parts text ∧ (∀ piece ∈ parts, Sound piece) ∧ List.Forall₂ Yields parts name.components := by
  constructor
  · intro read
    cases text with
    | nil => exact Or.inl ⟨Or.inl rfl, (Except.ok.inj read).symm⟩
    | cons c rest =>
      by_cases leads : c = separator
      · subst leads
        by_cases present : rest = []
        · subst present
          exact Or.inl ⟨Or.inr rfl, (Except.ok.inj read).symm⟩
        · rw [ofChars_separator present] at read
          rcases parsed : componentsOfPieces 0 (taken rest) with fault | components
          · simp [parsed, Except.map] at read
          · obtain ⟨sound, each⟩ := componentsOfPieces_eq_ok_iff.mp parsed
            obtain rfl : ⟨components⟩ = name := by simpa [parsed, Except.map] using read
            exact Or.inr ⟨taken rest, divides_taken present, sound, each⟩
      · simp [ofChars, leads] at read
  · rintro (⟨rfl | rfl, rfl⟩ | ⟨parts, divides, sound, each⟩)
    · rfl
    · rfl
    · obtain ⟨rest, rfl⟩ := List.head?_eq_some_iff.mp divides.head
      obtain ⟨present, rfl⟩ := divides.eq_taken sound
      rw [ofChars_separator present, componentsOfPieces_eq_ok_iff.mpr ⟨sound, each⟩]
      rfl

theorem FirstFault.append {parts : List (List Char)} {fault : Malformed} (first : FirstFault parts fault)
    (more : List (List Char)) : FirstFault (parts ++ more) fault := by
  obtain ⟨before, piece, after, rfl, sound, faulty⟩ := first
  exact ⟨before, piece, after ++ more, by simp, sound, faulty⟩

theorem FirstFault.not_sound {parts : List (List Char)} {fault : Malformed} (first : FirstFault parts fault) :
    ¬ ∀ piece ∈ parts, Sound piece := by
  obtain ⟨before, piece, after, rfl, -, faulty⟩ := first
  exact fun sound => faulty.not_sound (sound piece (by simp))

theorem ofChars_error {text : List Char} {fault : Malformed} (read : ofChars text = .error fault) :
    (fault = .missingSeparator ∧ text ≠ [] ∧ text.head? ≠ some separator) ∨
      text.head? = some separator ∧ (∃ parts, Divides parts text) ∧
        ∀ parts, Divides parts text → FirstFault parts fault := by
  cases text with
  | nil => exact absurd read (by simp [ofChars])
  | cons c rest =>
    by_cases leads : c = separator
    · subst leads
      have present : rest ≠ [] := by
        rintro rfl
        exact absurd read (by simp [ofChars, withoutTrailingSeparator])
      rw [ofChars_separator present] at read
      have failed : componentsOfPieces 0 (taken rest) = .error fault := by
        cases parsed : componentsOfPieces 0 (taken rest) with
        | error other => simpa [parsed, Except.map] using read
        | ok components => simp [parsed, Except.map] at read
      have first : FirstFault (taken rest) fault := by
        simpa [FirstFault] using firstFault_of_componentsOfPieces failed
      refine Or.inr ⟨rfl, ⟨taken rest, divides_taken present⟩, fun parts divides => ?_⟩
      rcases divides.cases present with rfl | rfl | ⟨rfl, two⟩
      · exact first
      · exact first.append _
      · rw [two] at failed
        exact ⟨[], [], [], rfl, by simp, Except.error.inj failed ▸ .empty rfl⟩
    · refine Or.inl ⟨?_, by simp, by simpa using leads⟩
      simpa [ofChars, leads, eq_comm] using read

/-- The reader takes a text exactly if it is empty, a separator alone or divided
into sound pieces, and the components are what the pieces yield. Any other text
lacks a separator at its start, or is faulted for its first bad piece, however
it is divided. -/
theorem texts_are_read_by_grammar (text : String) :
    ((∃ name, ofText text = .ok name) ↔
      text = "" ∨ text = "/" ∨ ∃ parts, Divides parts text.toList ∧ ∀ piece ∈ parts, Sound piece) ∧
    (∀ name, ofText text = .ok name ↔
      (text = "" ∨ text = "/") ∧ name = root ∨
      ∃ parts, Divides parts text.toList ∧ (∀ piece ∈ parts, Sound piece) ∧ List.Forall₂ Yields parts name.components) ∧
    ∀ fault, ofText text = .error fault →
      (fault = .missingSeparator ∧ text ≠ "" ∧ text.toList.head? ≠ some separator) ∨
      text.toList.head? = some separator ∧ (∃ parts, Divides parts text.toList) ∧
        ∀ parts, Divides parts text.toList → FirstFault parts fault := by
  have empty : text = "" ↔ text.toList = [] := String.toList_inj.symm
  have alone : text = "/" ↔ text.toList = [separator] := String.toList_inj.symm
  rw [Ne, empty, alone]
  refine ⟨⟨?_, ?_⟩, fun name => ofChars_eq_ok_iff, fun fault => ofChars_error⟩
  · rintro ⟨name, read⟩
    rcases ofChars_eq_ok_iff.mp read with ⟨nothing | alone, -⟩ | ⟨parts, divides, sound, -⟩
    · exact Or.inl nothing
    · exact Or.inr (Or.inl alone)
    · exact Or.inr (Or.inr ⟨parts, divides, sound⟩)
  · rintro (nothing | alone | ⟨parts, divides, sound⟩)
    · exact ⟨root, ofChars_eq_ok_iff.mpr (Or.inl ⟨Or.inl nothing, rfl⟩)⟩
    · exact ⟨root, ofChars_eq_ok_iff.mpr (Or.inl ⟨Or.inr alone, rfl⟩)⟩
    · cases read : ofText text with
      | ok name => exact ⟨name, rfl⟩
      | error fault =>
        rcases ofChars_error read with ⟨-, -, other⟩ | ⟨-, -, faulted⟩
        · exact absurd divides.head other
        · exact absurd sound (faulted parts divides).not_sound

namespace Sample

def good : List (List Char) := [['.', '.', '.', '.'], ['%', '2', 'e']]

def bad : List (List Char) := [['b', '%', '4'], ['.', '.']]

end Sample

open Name.Sample in
theorem incomplete_escape_is_faulted :
    ofText "/..../%2e/b%4/../" = .error (.invalidEscape 2) ∧ FirstFault (good ++ bad) (.invalidEscape 2) ∧
      ofText "/..../%2e/" = .ok (.ofBytes [[0x2E], [0x2E]]) ∧
      ∃ parts, Divides parts "/..../%2e/".toList ∧ List.Forall₂ Yields parts [⟨[0x2E]⟩, ⟨[0x2E]⟩] := by
  have failed : ofText "/..../%2e/b%4/../" = .error (.invalidEscape 2) := rfl
  have read : ofText "/..../%2e/" = .ok (.ofBytes [[0x2E], [0x2E]]) := rfl
  have divides : Divides (good ++ bad) "/..../%2e/b%4/../".toList := ⟨by decide, by decide, Or.inr rfl⟩
  obtain ⟨-, -, faults⟩ := texts_are_read_by_grammar "/..../%2e/b%4/../"
  obtain ⟨-, names, -⟩ := texts_are_read_by_grammar "/..../%2e/"
  refine ⟨failed, ?_, read, ?_⟩
  · rcases faults _ failed with ⟨missing, -⟩ | ⟨-, -, first⟩
    · exact absurd missing (by simp)
    · exact first _ divides
  · rcases (names _).mp read with ⟨-, bare⟩ | ⟨parts, divided, -, each⟩
    · exact absurd bare (by decide)
    · exact ⟨parts, divided, each⟩

end Name

end NamedContent
