import NamedContent.Name.Text

/-! The text of a name says which name it is.

What is written for a component is not empty, holds no separator and reads back
as the component: one made of periods alone loses the three that were added,
and in any other some character is no period. So the separators of a text part
it into the texts of the components. -/

set_option autoImplicit false

namespace NamedContent

namespace Component

-- Unreserved bytes are characters that mean nothing to the reader but themselves.
theorem plain_of_isUnreserved {byte : UInt8} (unreserved : isUnreserved byte = true) :
    String.utf8EncodeChar (Char.ofNat byte.toNat) = [byte] ∧ Char.ofNat byte.toNat ≠ '%' ∧
      Char.ofNat byte.toNat ≠ '/' ∧ (Char.ofNat byte.toNat = '.' ↔ byte = period) := by
  have plain : ∀ number < 256, isUnreserved (UInt8.ofNat number) = true →
      String.utf8EncodeChar (Char.ofNat number) = [UInt8.ofNat number] ∧ Char.ofNat number ≠ '%' ∧
        Char.ofNat number ≠ '/' ∧ (Char.ofNat number = '.' ↔ UInt8.ofNat number = period) := by
    decide +kernel
  simpa [unreserved] using plain byte.toNat byte.toNat_lt

theorem unescape_cons_of_ne {c : Char} (plain : c ≠ '%') (rest : List Char) :
    unescape (c :: rest) = (unescape rest).map (String.utf8EncodeChar c ++ ·) := by
  rw [unescape, if_neg plain]
  rintro high low others rfl
  exact absurd rfl plain

theorem unescape_escapeByte_append (byte : UInt8) (rest : List Char) :
    unescape (escapeByte byte ++ rest) = (unescape rest).map (byte :: ·) := by
  cases unreserved : isUnreserved byte with
  | true =>
    obtain ⟨encoded, notPercent, -⟩ := plain_of_isUnreserved unreserved
    rw [escapeByte, if_pos unreserved, List.singleton_append, unescape_cons_of_ne notPercent, encoded]
    rfl
  | false =>
    have spelled : escapeByte byte ++ rest
        = '%' :: Bytes.Hex.digit 'A' (byte.toNat / 16) :: Bytes.Hex.digit 'A' (byte.toNat % 16) :: rest := by
      simp [escapeByte, unreserved, Bytes.Hex.pair]
    rw [spelled, unescape, Bytes.Hex.byte?_pair]
    cases unescape rest <;> rfl

theorem unescape_flatMap_escapeByte (bytes : List UInt8) : unescape (bytes.flatMap escapeByte) = some bytes := by
  induction bytes with
  | nil => rfl
  | cons byte rest ih => rw [List.flatMap_cons, unescape_escapeByte_append, ih, Option.map_some]

theorem separator_not_mem_escapeByte (byte : UInt8) : Name.separator ∉ escapeByte byte := by
  rw [Name.separator]
  have bound := byte.toNat_lt
  cases unreserved : isUnreserved byte with
  | true => simpa [escapeByte, unreserved] using (plain_of_isUnreserved unreserved).2.2.1.symm
  | false =>
    have outside : Bytes.Hex.value? '/' = none := by decide
    have high := Bytes.Hex.digit_ne (show byte.toNat / 16 < 16 by omega) outside
    have low := Bytes.Hex.digit_ne (show byte.toNat % 16 < 16 by omega) outside
    simp [escapeByte, unreserved, Bytes.Hex.pair, high.symm, low.symm]

theorem all_escapeByte (byte : UInt8) : (escapeByte byte).all (· == '.') = (byte == period) := by
  cases unreserved : isUnreserved byte with
  | true =>
    obtain ⟨-, -, -, dot⟩ := plain_of_isUnreserved unreserved
    simp [escapeByte, unreserved, dot, Bool.beq_eq_decide_eq]
  | false =>
    have other : byte ≠ period := by
      rintro rfl
      exact absurd unreserved (by decide)
    simp [escapeByte, unreserved, other]

def written (component : Component) : List UInt8 :=
  component.bytes ++ if component.isPeriods then [period, period, period] else []

theorem chars_eq (component : Component) : component.chars = component.written.flatMap escapeByte := by
  have periods : [period, period, period].flatMap escapeByte = ['.', '.', '.'] := by decide
  rw [chars, written, List.flatMap_append]
  split <;> simp [periods]

theorem unescape_chars (component : Component) : unescape component.chars = some component.written := by
  rw [chars_eq, unescape_flatMap_escapeByte]

theorem separator_not_mem_chars (component : Component) : Name.separator ∉ component.chars := by
  rw [chars_eq, List.mem_flatMap]
  rintro ⟨byte, -, found⟩
  exact separator_not_mem_escapeByte byte found

theorem all_chars (component : Component) : component.chars.all (· == '.') = component.isPeriods := by
  simp only [chars, List.all_append, List.all_flatMap, all_escapeByte]
  cases periods : component.isPeriods with
  | true => simpa [isPeriods] using periods
  | false => simpa [isPeriods] using periods

theorem length_chars_of_isPeriods {component : Component} (periods : component.isPeriods = true) :
    component.chars.length = component.bytes.length + 3 := by
  have single : ∀ byte ∈ component.bytes, (escapeByte byte).length = 1 := by
    intro byte member
    have same : byte = period := by simpa using List.all_eq_true.mp periods byte member
    rw [same]
    decide
  rw [chars, if_pos periods, List.length_append, List.length_flatMap, List.map_congr_left single, List.map_const',
    List.sum_replicate_nat, Nat.mul_one]
  rfl

theorem chars_ne_nil (component : Component) : component.chars ≠ [] := by
  intro nothing
  have periods : component.isPeriods = true := by rw [← all_chars, nothing]; rfl
  have long := length_chars_of_isPeriods periods
  rw [nothing] at long
  exact absurd long (by simp)

theorem ofPiece_chars (position : Nat) (component : Component) : ofPiece position component.chars = .ok component := by
  have present : component.chars.isEmpty = false := by simp [chars_ne_nil]
  rw [ofPiece, present, unescape_chars, all_chars]
  cases periods : component.isPeriods with
  | true =>
    have long := length_chars_of_isPeriods periods
    have kept : component.written.take component.bytes.length = component.bytes := by simp [written]
    simp [long, kept]
  | false => simp [written, periods]

end Component

namespace Name

theorem pieces_of_not_mem {piece : List Char} (whole : separator ∉ piece) : pieces piece = [piece] := by
  induction piece with
  | nil => rfl
  | cons c rest ih =>
    obtain ⟨other, later⟩ := List.ne_and_not_mem_of_not_mem_cons whole
    rw [pieces, if_neg (Ne.symm other), ih later]

theorem pieces_append_separator {piece : List Char} (whole : separator ∉ piece) (rest : List Char) :
    pieces (piece ++ separator :: rest) = piece :: pieces rest := by
  induction piece with
  | nil => rw [List.nil_append, pieces, if_pos rfl]
  | cons c others ih =>
    obtain ⟨other, later⟩ := List.ne_and_not_mem_of_not_mem_cons whole
    rw [List.cons_append, pieces, if_neg (Ne.symm other), ih later]

theorem pieces_flatMap {first : List Char} {rest : List (List Char)}
    (whole : ∀ piece ∈ first :: rest, separator ∉ piece) :
    pieces (first ++ rest.flatMap (separator :: ·)) = first :: rest := by
  induction rest generalizing first with
  | nil => simpa using pieces_of_not_mem (whole first List.mem_cons_self)
  | cons second rest ih =>
    obtain ⟨here, others⟩ := List.forall_mem_cons.mp whole
    rw [List.flatMap_cons, List.cons_append, pieces_append_separator here, ih others]

-- The separators of a text part it where the components meet.
theorem pieces_chars (first : Component) (rest : List Component) :
    pieces (first.chars ++ (Name.mk rest).chars) = (first :: rest).map Component.chars := by
  have joined : (Name.mk rest).chars = (rest.map Component.chars).flatMap (separator :: ·) := by
    simp [chars, List.flatMap_map]
  rw [joined, List.map_cons]
  refine pieces_flatMap fun piece member => ?_
  obtain ⟨component, -, rfl⟩ := List.mem_map.mp (show piece ∈ (first :: rest).map Component.chars from member)
  exact component.separator_not_mem_chars

theorem componentsOfPieces_chars (position : Nat) (components : List Component) :
    componentsOfPieces position (components.map Component.chars) = .ok components := by
  induction components generalizing position with
  | nil => rfl
  | cons first rest ih => rw [List.map_cons, componentsOfPieces, Component.ofPiece_chars, ih]

-- A text does not end in a separator, as the last component has characters.
theorem getLast?_chars (first : Component) (rest : List Component) :
    (first.chars ++ (Name.mk rest).chars).getLast? ≠ some separator := by
  induction rest generalizing first with
  | nil =>
    intro last
    rw [show (Name.mk []).chars = [] from rfl, List.append_nil] at last
    exact first.separator_not_mem_chars (List.mem_of_getLast? last)
  | cons second rest ih =>
    have split : (Name.mk (second :: rest)).chars = [separator] ++ (second.chars ++ (Name.mk rest).chars) := rfl
    have present : second.chars ++ (Name.mk rest).chars ≠ [] := by simp [second.chars_ne_nil]
    rw [split, ← List.append_assoc, List.getLast?_append, List.getLast?_eq_some_getLast present, Option.some_or,
      ← List.getLast?_eq_some_getLast present]
    exact ih second

theorem ofChars_chars (name : Name) : ofChars name.chars = .ok name := by
  obtain ⟨components⟩ := name
  cases components with
  | nil => rfl
  | cons first rest =>
    have split : (Name.mk (first :: rest)).chars = separator :: (first.chars ++ (Name.mk rest).chars) := rfl
    have whole : withoutTrailingSeparator (first.chars ++ (Name.mk rest).chars)
        = first.chars ++ (Name.mk rest).chars := if_neg fun ends => getLast?_chars first rest ends.1
    rw [split, ofChars, if_neg (by simp), whole]
    split
    · rename_i nothing
      exact absurd nothing (by simp [first.chars_ne_nil])
    · rw [pieces_chars, componentsOfPieces_chars]

/-- Names and their texts: what is written for a name reads back as that name,
so no two names have one text, and a text that is read, written and read again
gives what the first reading gave. -/
theorem texts_read_back :
    (∀ name : Name, ofText name.text = .ok name) ∧ (∀ first second : Name, first.text = second.text → first = second) ∧
      ∀ (source : String) (name : Name), ofText source = .ok name → ofText name.text = ofText source := by
  have reads : ∀ name : Name, ofText name.text = .ok name := by
    intro name
    rw [ofText, text, String.toList_ofList, ofChars_chars]
  refine ⟨reads, ?_, ?_⟩
  · intro first second same
    exact Except.ok.inj ((reads first).symm.trans ((congrArg ofText same).trans (reads second)))
  · intro source name read
    rw [reads, read]

def Sample.marks : Name := .ofBytes [[], [0x2E], [0x2F, 0x25], [0xFF, 0x61]]

theorem escaped_period_reads_back :
    ofText "/.../%2e/%2f%25/%fFa/" = .ok Sample.marks ∧ Sample.marks.text = "/.../..../%2F%25/%FFa" ∧
      ofText Sample.marks.text = ofText "/.../%2e/%2f%25/%fFa/" ∧
      ∀ other : Name, other.text = "/.../..../%2F%25/%FFa" → Sample.marks = other := by
  have read : ofText "/.../%2e/%2f%25/%fFa/" = .ok Sample.marks := rfl
  have written : Sample.marks.text = "/.../..../%2F%25/%FFa" := by decide +kernel
  obtain ⟨-, single, again⟩ := texts_read_back
  exact ⟨read, written, again _ _ read, fun other same => single _ _ (written.trans same.symm)⟩

end Name

end NamedContent
