import SymbolTable.Config.Compact
import SymbolTable.Config.Reader.Quoted
import SymbolTable.Proofs.Config.Json

/-!
Strings are read back whatever they are written with: every character comes back from
what stands for it, be it the character itself, a letter or code units behind a
backslash. A string that is skipped may hold any code units.
-/
namespace SymbolTable.Read

open Json

theorem hexDigit_digit (value : Nat) (c : Char) (digit : HexDigit value c) :
    hexDigit? c = some value := by
  have either : ∀ value < 16, hexDigit? (Nat.digitChar value) = some value ∧
      hexDigit? (Nat.digitChar value).toUpper = some value := by
    decide
  obtain ⟨small, rfl | rfl⟩ := digit
  · exact (either value small).1
  · exact (either value small).2

theorem codeUnit_digits (unit : Nat) (digits rest : List Char) (written : CodeUnit unit digits) :
    codeUnit (digits ++ rest) = .ok (unit, rest) := by
  cases written with
  | @digits first second third fourth a b c d one two three four =>
      have value : ((first * 16 + second) * 16 + third) * 16 + fourth =
          first * 0x1000 + second * 0x100 + third * 0x10 + fourth := by omega
      simp only [List.cons_append, List.nil_append, codeUnit, hexDigit_digit _ _ one,
        hexDigit_digit _ _ two, hexDigit_digit _ _ three, hexDigit_digit _ _ four, value]

theorem letterEscape_letter (letter c : Char) (listed : (letter, c) ∈ letters) :
    letter ≠ 'u' ∧ letterEscape? letter = some c := by
  have table : ∀ entry ∈ letters, entry.1 ≠ 'u' ∧ letterEscape? entry.1 = some entry.2 := by
    decide
  exact table (letter, c) listed

/-- A character of the first plane is no half of a pair. -/
theorem codeEscape_unit (c : Char) (digits rest : List Char) (written : CodeUnit c.toNat digits) :
    codeEscape (digits ++ rest) = .ok (c, rest) := by
  have valid : c.toNat < 0xD800 ∨ 0xDFFF < c.toNat ∧ c.toNat < 0x110000 := c.valid
  have leading : isLeading c.toNat = false := by simp [isLeading]; omega
  have trailing : isTrailing c.toNat = false := by simp [isTrailing]; omega
  simp only [codeEscape, codeUnit_digits _ _ _ written, leading, trailing, Char.ofNat_toNat]
  rfl

theorem codeEscape_pair (c : Char) (leading trailing rest : List Char)
    (beyond : 0x10000 ≤ c.toNat)
    (first : CodeUnit (0xD800 + (c.toNat - 0x10000) / 0x400) leading)
    (second : CodeUnit (0xDC00 + (c.toNat - 0x10000) % 0x400) trailing) :
    codeEscape (leading ++ '\\' :: 'u' :: (trailing ++ rest)) = .ok (c, rest) := by
  have valid : c.toNat < 0xD800 ∨ 0xDFFF < c.toNat ∧ c.toNat < 0x110000 := c.valid
  have opens : isTrailing (0xD800 + (c.toNat - 0x10000) / 0x400) = false ∧
      isLeading (0xD800 + (c.toNat - 0x10000) / 0x400) = true := by
    simp [isTrailing, isLeading]
    omega
  have closes : isTrailing (0xDC00 + (c.toNat - 0x10000) % 0x400) = true := by
    simp [isTrailing]
    omega
  have together : paired (0xD800 + (c.toNat - 0x10000) / 0x400)
      (0xDC00 + (c.toNat - 0x10000) % 0x400) = c := by
    have value : 0x10000 + (0xD800 + (c.toNat - 0x10000) / 0x400 - 0xD800) * 0x400 +
        (0xDC00 + (c.toNat - 0x10000) % 0x400 - 0xDC00) = c.toNat := by omega
    rw [paired, value, Char.ofNat_toNat]
  simp only [codeEscape, codeUnit_digits _ _ _ first, opens, trailingUnit,
    codeUnit_digits _ _ _ second, closes, together, Bool.false_eq_true, if_false, if_true]

/-- An escape decides what goes on behind it. -/
theorem quoted_backslash (text : List Char) :
    quoted ('\\' :: text) =
      match escape text with
      | .error error => .error error
      | .ok (c, rest) => prepend c (quoted rest) := by
  rw [quoted, if_neg (by decide), if_pos rfl]
  split <;> rename_i meant <;> simp only [meant]

theorem quoted_escape (text rest : List Char) (c : Char) (meant : escape text = .ok (c, rest)) :
    quoted ('\\' :: text) = prepend c (quoted rest) := by
  simp only [quoted_backslash, meant]

/-- The step lemma: one character comes back from what stands for it. -/
theorem quoted_spells (c : Char) (piece rest : List Char) (spelled : Spells c piece) :
    quoted (piece ++ rest) = prepend c (quoted rest) := by
  cases spelled with
  | plain plain =>
      obtain ⟨quote, backslash, visible⟩ := plain
      rw [List.singleton_append, quoted, if_neg quote, if_neg backslash,
        if_neg (by simpa [isControl] using visible)]
  | letter listed =>
      obtain ⟨other, stands⟩ := letterEscape_letter _ c listed
      apply quoted_escape
      simp only [List.append_eq, List.singleton_append, escape, if_neg other, stands]
  | unit written =>
      apply quoted_escape
      exact codeEscape_unit c _ rest written
  | pair beyond first second =>
      rw [List.cons_append, List.cons_append, List.append_assoc]
      apply quoted_escape
      exact codeEscape_pair c _ _ rest beyond first second

/-- A string comes back up to the quote that closes it. -/
theorem quoted_spelled (chars : List Char) (pieces : List (List Char)) (rest : List Char)
    (spelled : List.Forall₂ Spells chars pieces) :
    quoted (pieces.flatten ++ '"' :: rest) = .ok (chars, rest) := by
  induction spelled with
  | nil => rw [List.flatten_nil, List.nil_append, quoted, if_pos rfl]
  | cons first _ ih =>
      rw [List.flatten_cons, List.append_assoc, quoted_spells _ _ _ first, ih]
      rfl

theorem escaped_spells (c : Char) : Spells c (Compact.escaped c) := by
  have letter : ∀ letter, (letter, c) ∈ letters → Spells c ['\\', letter] :=
    fun _ listed => .letter listed
  unfold Compact.escaped
  split
  · subst c
    exact letter '"' (by decide)
  split
  · subst c
    exact letter '\\' (by decide)
  split
  · subst c
    exact letter 'b' (by decide)
  split
  · subst c
    exact letter 't' (by decide)
  split
  · subst c
    exact letter 'n' (by decide)
  split
  · subst c
    exact letter 'f' (by decide)
  split
  · subst c
    exact letter 'r' (by decide)
  split
  · have value : 0 * 0x1000 + 0 * 0x100 + c.toNat / 16 * 0x10 + c.toNat % 16 = c.toNat := by omega
    have zero : HexDigit 0 '0' := ⟨by decide, .inl rfl⟩
    have written := CodeUnit.digits zero zero ⟨show c.toNat / 16 < 16 by omega, .inl rfl⟩
      ⟨show c.toNat % 16 < 16 by omega, .inl rfl⟩
    rw [value] at written
    exact .unit written
  · rename_i quote backslash _ _ _ _ _ visible
    exact .plain ⟨quote, backslash, Nat.le_of_not_lt visible⟩

theorem quoted_escaped (c : Char) (rest : List Char) :
    quoted (Compact.escaped c ++ rest) = prepend c (quoted rest) :=
  quoted_spells c _ rest (escaped_spells c)

theorem escaped_spelled (text : List Char) :
    List.Forall₂ Spells text (text.map Compact.escaped) :=
  List.forall₂_map_right_iff.mpr (List.forall₂_same.mpr fun c _ => escaped_spells c)

theorem compact_spelling (text : String) : Spelling text (Compact.quoted text) :=
  ⟨text.toList.map Compact.escaped, escaped_spelled text.toList, rfl⟩

theorem quoted_compact (text rest : List Char) :
    quoted (text.flatMap Compact.escaped ++ '"' :: rest) = .ok (text, rest) :=
  quoted_spelled text _ rest (escaped_spelled text)

theorem skipQuoted_escape (text rest : List Char) (passed : skipEscape text = .ok rest) :
    skipQuoted ('\\' :: text) = skipQuoted rest := by
  rw [skipQuoted, if_neg (by decide), if_pos rfl]
  split <;> rename_i found
  · rw [passed] at found
    cases found
  · rw [passed] at found
    cases found
    rfl

theorem skipQuoted_piece (piece rest : List Char) (form : Piece piece) :
    skipQuoted (piece ++ rest) = skipQuoted rest := by
  cases form with
  | plain plain =>
      obtain ⟨quote, backslash, visible⟩ := plain
      rw [List.singleton_append, skipQuoted, if_neg quote, if_neg backslash,
        if_neg (by simpa [isControl] using visible)]
  | letter listed =>
      obtain ⟨other, stands⟩ := letterEscape_letter _ _ listed
      apply skipQuoted_escape
      simp only [List.append_eq, List.singleton_append, skipEscape, if_neg other, stands]
      rfl
  | unit written =>
      apply skipQuoted_escape
      simp only [List.append_eq, List.cons_append, skipEscape, if_pos,
        codeUnit_digits _ _ _ written]
      rfl

theorem skipQuoted_pieces (pieces : List (List Char)) (rest : List Char)
    (form : ∀ piece ∈ pieces, Piece piece) :
    skipQuoted (pieces.flatten ++ '"' :: rest) = .ok rest := by
  induction pieces with
  | nil => rw [List.flatten_nil, List.nil_append, skipQuoted, if_pos rfl]
  | cons piece pieces ih =>
      obtain ⟨first, others⟩ := List.forall_mem_cons.mp form
      rw [List.flatten_cons, List.append_assoc, skipQuoted_piece piece _ first]
      exact ih others

end SymbolTable.Read
