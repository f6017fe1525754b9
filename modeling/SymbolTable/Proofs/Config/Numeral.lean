import SymbolTable.Config.Compact
import SymbolTable.Config.Reader.Record
import SymbolTable.Proofs.Config.Json

/-!
Words that are written down and read back. The digits of a word have no zero in
front, their value is the word, and with no fraction and no exponent behind them
they are far below the largest double. What follows must not go on with the
numeral; behind a value in an object stands a comma or the brace that closes it.
A numeral that is skipped may be any number.
-/
namespace SymbolTable

/-- What stands behind a value in an object. -/
def Closes : List Char → Prop
  | c :: _ => c = ',' ∨ c = '\x7d'
  | [] => False

/-- What may stand behind a value at all. -/
def Ends : List Char → Prop
  | c :: _ => c = ',' ∨ c = ']' ∨ c = '\x7d' ∨ Read.isBlank c = true
  | [] => True

theorem Closes.ends {rest : List Char} (closes : Closes rest) : Ends rest := by
  cases rest with
  | nil => cases closes
  | cons c rest =>
      rcases closes with comma | brace
      · exact .inl comma
      · exact .inr (.inr (.inl brace))

namespace Numeral

theorem toDigits_head (value : Nat) (positive : 0 < value) :
    (Nat.toDigits 10 value).head? ≠ some '0' := by
  induction value using Nat.strongRecOn with
  | _ value ih =>
    by_cases single : value < 10
    · have visible : ∀ digit < 10, 0 < digit → Nat.digitChar digit ≠ '0' := by decide
      rw [Nat.toDigits_of_lt_base single]
      simpa using visible value single positive
    · have more := ih (value / 10) (by omega) (by omega)
      rw [Nat.toDigits_of_base_le (by decide) (by omega), List.head?_append]
      cases front : (Nat.toDigits 10 (value / 10)).head? with
      | none => exact absurd (List.head?_eq_none_iff.mp front) Nat.toDigits_ne_nil
      | some c => rwa [front] at more

theorem natural_toDigits (value : Nat) : natural (Nat.toDigits 10 value) = value := by
  have decimal := Nat.ofDigitChars_ten_toDigits (n := value)
  simpa [Nat.ofDigitChars_eq_foldl, natural, digit, Nat.mul_comm] using decimal

theorem le_foldl (digits : List Char) (significand : Nat) :
    significand ≤ digits.foldl (fun value c => value * 10 + digit c) significand := by
  induction digits generalizing significand with
  | nil => exact Nat.le_refl _
  | cons c rest ih =>
      have next := ih (significand * 10 + digit c)
      rw [List.foldl_cons]
      omega

/-- Nothing is left out of a significand whose digits amount to a word. -/
theorem gather_word (digits : List Char) (significand : Nat)
    (small : digits.foldl (fun value c => value * 10 + digit c) significand < UInt64.size) :
    gather significand digits =
      (digits.foldl (fun value c => value * 10 + digit c) significand, []) := by
  induction digits generalizing significand with
  | nil => rfl
  | cons c rest ih =>
      rw [List.foldl_cons] at small
      have fits := Nat.lt_of_le_of_lt (le_foldl rest (significand * 10 + digit c)) small
      rw [gather, if_pos fits, ih _ small, List.foldl_cons]

theorem nearestDouble_le (value : Nat) : nearestDouble value ≤ 2 * value := by
  unfold nearestDouble
  split
  · omega
  · rename_i large
    simp only [Nat.pow_eq] at large ⊢
    have unit : 2 ^ (value.log2 - 52) ≤ value :=
      calc 2 ^ (value.log2 - 52)
        _ ≤ 2 ^ value.log2 := Nat.pow_le_pow_right (by decide) (Nat.sub_le _ _)
        _ ≤ value := Nat.log2_self_le (by rintro rfl; exact large (by decide))
    have below := Nat.div_mul_le_self value (2 ^ (value.log2 - 52))
    split
    · rw [Nat.succ_mul]
      omega
    · omega

theorem word_lt_doublesEnd (value : Nat) (small : value < UInt64.size) :
    2 * value < doublesEnd := by
  -- The kernel alone computes powers of this size.
  have room : 2 * UInt64.size ≤ doublesEnd := by decide +kernel
  omega

/-- No word is beyond the doubles. -/
theorem isTooLarge_word (value : Nat) (small : value < UInt64.size) :
    isTooLarge ⟨Nat.toDigits 10 value, none, none⟩ = false := by
  have whole : gather 0 (Nat.toDigits 10 value) = (value, []) := by
    have gathered := gather_word (Nat.toDigits 10 value) 0
    rw [← natural, natural_toDigits] at gathered
    exact gathered small
  have scaled : scaled ⟨Nat.toDigits 10 value, none, none⟩ = (value, 0) := by
    simp [Numeral.scaled, whole, gather]
  have bound := Nat.lt_of_le_of_lt (nearestDouble_le value) (word_lt_doublesEnd value small)
  have one : nearestDouble (Nat.pow 10 0) = 1 := rfl
  cases value with
  | zero => simp only [isTooLarge, scaled]
  | succ value =>
      have power : (0 : Int) = Int.ofNat 0 := rfl
      simp only [isTooLarge, scaled, power, one, Nat.mul_one]
      simpa using bound

end Numeral

namespace Read

open Json

theorem blanks_cons (c : Char) (rest : List Char) (visible : isBlank c = false) :
    blanks (c :: rest) = c :: rest := by
  rw [blanks, List.dropWhile_cons, if_neg (by simp [visible])]

theorem isBlank_digit (c : Char) (digit : isDigit c = true) : isBlank c = false := by
  cases blank : isBlank c with
  | false => rfl
  | true =>
      simp only [isBlank, Bool.or_eq_true, beq_iff_eq] at blank
      rcases blank with ((rfl | rfl) | rfl) | rfl <;> cases digit

theorem digits_append (taken rest : List Char) (some : taken ≠ [])
    (all : ∀ c ∈ taken, isDigit c = true) (ends : ∀ c ∈ rest.head?, isDigit c = false) :
    digits (taken ++ rest) = .ok (taken, rest) := by
  have stops : rest.takeWhile isDigit = [] ∧ rest.dropWhile isDigit = rest := by
    cases rest with
    | nil => exact ⟨rfl, rfl⟩
    | cons c rest => simp [ends c rfl]
  cases taken with
  | nil => exact absurd rfl some
  | cons c taken =>
      have behind : ∀ c ∈ taken, isDigit c = true :=
        fun c inside => all c (List.mem_cons_of_mem _ inside)
      rw [List.cons_append, digits, if_pos (all c List.mem_cons_self),
        List.takeWhile_append_of_pos behind, List.dropWhile_append_of_pos behind, stops.1, stops.2,
        List.append_nil]

/-- Nothing that may stand behind a value goes on with a numeral. -/
theorem ends_numeral (c : Char) (rest : List Char) (ends : Ends (c :: rest)) :
    isDigit c = false ∧ c ≠ '.' ∧ ¬(c = 'e' ∨ c = 'E') := by
  rcases ends with rfl | rfl | rfl | blank
  · decide
  · decide
  · decide
  · simp only [isBlank, Bool.or_eq_true, beq_iff_eq] at blank
    rcases blank with ((rfl | rfl) | rfl) | rfl <;> decide

theorem digits_end (rest : List Char) (ends : Ends rest) :
    ∀ c ∈ rest.head?, isDigit c = false := by
  intro c first
  cases rest with
  | nil => cases first
  | cons d rest =>
      cases first
      exact (ends_numeral c rest ends).1

theorem fraction_end (rest : List Char) (ends : Ends rest) :
    fraction? rest = .ok (none, rest) := by
  unfold fraction?
  split
  · exact absurd rfl (ends_numeral _ _ ends).2.1
  · rfl

theorem exponent_end (rest : List Char) (ends : Ends rest) :
    exponent? rest = .ok (none, rest) := by
  unfold exponent?
  split
  · rw [if_neg (ends_numeral _ _ ends).2.2]
  · rfl

theorem isDigit_of_decimal (c : Char) (decimal : c.isDigit = true) : isDigit c = true := by
  simpa [isDigit, Char.isDigit, Char.le_def] using decimal

theorem toDigits_whole (value : Nat) : Whole (Nat.toDigits 10 value) := by
  refine ⟨⟨Nat.toDigits_ne_nil, ?_⟩, ?_⟩
  · exact fun c digit => Nat.isDigit_of_mem_toDigits (by decide) (by decide) digit
  · intro zero
    cases value with
    | zero => rfl
    | succ value => exact absurd zero (Numeral.toDigits_head _ (Nat.succ_pos value))

/-- A numeral in its parts. -/
theorem numeral_parts (whole behind last rest : List Char) (fraction? : Option (List Char))
    (exponent? : Option (Bool × List Char)) (form : Whole whole)
    (stops : ∀ c ∈ behind.head?, isDigit c = false)
    (fraction : Read.fraction? behind = .ok (fraction?, last))
    (exponent : Read.exponent? last = .ok (exponent?, rest)) :
    numeral (whole ++ behind) = .ok (⟨whole, fraction?, exponent?⟩, rest) := by
  obtain ⟨⟨some, decimal⟩, zero⟩ := form
  have taken := digits_append whole behind some
    (fun c inside => isDigit_of_decimal c (decimal c inside)) stops
  rw [numeral, taken]
  split
  · rename_i failed
    cases failed
  · rename_i leading
    injection leading with leading
    injection leading with leading
    subst leading
    exact absurd (zero rfl) (by simp)
  · rename_i found
    cases found
    simp only [fraction, exponent]

/-- A numeral comes back as its digits alone. -/
theorem numeral_compact (value : Nat) (rest : List Char) (ends : Ends rest) :
    numeral (Nat.toDigits 10 value ++ rest) = .ok (⟨Nat.toDigits 10 value, none, none⟩, rest) :=
  numeral_parts _ rest rest rest none none (toDigits_whole value) (digits_end rest ends)
    (fraction_end rest ends) (exponent_end rest ends)

/-- A word comes back up to what stands behind it. -/
theorem word64_compact (value : UInt64) (rest : List Char) (ends : Ends rest) :
    word64 (Compact.word value ++ rest) = .ok (value, rest) := by
  have form := numeral_compact value.toNat rest ends
  have small : value.toNat < UInt64.size := value.toNat_lt_size
  have word : Numeral.word? ⟨Nat.toDigits 10 value.toNat, none, none⟩ = some value := by
    simp [Numeral.word?, Numeral.natural_toDigits, small]
  have taken : number (Nat.toDigits 10 value.toNat ++ rest) =
      .ok (⟨Nat.toDigits 10 value.toNat, none, none⟩, rest) := by
    rw [number, form]
    simp [Numeral.isTooLarge_word value.toNat small]
  unfold Compact.word word64
  cases written : Nat.toDigits 10 value.toNat with
  | nil => exact absurd written Nat.toDigits_ne_nil
  | cons c more =>
      have decimal := (toDigits_whole value.toNat).1.2 c (by simp [written])
      have digit := isDigit_of_decimal c decimal
      rw [written] at taken word
      rw [List.cons_append] at taken ⊢
      rw [blanks_cons c (more ++ rest) (isBlank_digit c digit)]
      simp only [digit, taken, word, if_true]

theorem exponent_some (mark : Char) (behind : List Char) (marks : mark = 'e' ∨ mark = 'E') :
    exponent? (mark :: behind) = (digits (sign behind).2).map fun (digits, rest) =>
      (some ((sign behind).1, digits), rest) := by
  simp only [exponent?, if_pos marks]

/-- A sign is taken off where there is one; a digit is none. -/
theorem sign_taken (signed taken rest : List Char)
    (form : signed = [] ∨ signed = ['+'] ∨ signed = ['-']) (all : Digits taken) :
    (sign (signed ++ (taken ++ rest))).2 = taken ++ rest := by
  rcases form with rfl | rfl | rfl
  · cases taken with
    | nil => exact absurd rfl all.1
    | cons c taken =>
        have digit := all.2 c List.mem_cons_self
        rw [List.nil_append, List.cons_append, sign]
        · rintro behind same
          cases same
          cases digit
        · rintro behind same
          cases same
          cases digit
  · rfl
  · rfl

theorem exponent_taken (exponent rest : List Char) (form : Exponent exponent) (ends : Ends rest) :
    ∃ taken, exponent? (exponent ++ rest) = .ok (taken, rest) := by
  cases form with
  | none => exact ⟨none, exponent_end rest ends⟩
  | @some mark signed taken marks signs all =>
      have behind := digits_append taken rest all.1
        (fun c inside => isDigit_of_decimal c (all.2 c inside)) (digits_end rest ends)
      rw [List.cons_append, List.append_assoc, exponent_some mark _ marks,
        sign_taken signed taken rest signs all, behind]
      exact ⟨_, rfl⟩

theorem exponent_head (exponent rest : List Char) (form : Exponent exponent) (ends : Ends rest) :
    ∀ c ∈ (exponent ++ rest).head?, isDigit c = false ∧ c ≠ '.' := by
  intro c first
  cases form with
  | none =>
      cases rest with
      | nil => cases first
      | cons d rest =>
          cases first
          have other := ends_numeral c rest ends
          exact ⟨other.1, other.2.1⟩
  | some marks signs all =>
      cases first
      rcases marks with rfl | rfl <;> decide

theorem fraction_taken (fraction rest : List Char) (form : Fraction fraction)
    (stops : ∀ c ∈ rest.head?, isDigit c = false ∧ c ≠ '.') :
    ∃ taken, fraction? (fraction ++ rest) = .ok (taken, rest) := by
  cases form with
  | none =>
      refine ⟨none, ?_⟩
      rw [List.nil_append, fraction?]
      rintro behind rfl
      exact (stops '.' rfl).2 rfl
  | @some taken all =>
      have behind := digits_append taken rest all.1
        (fun c inside => isDigit_of_decimal c (all.2 c inside)) (fun c first => (stops c first).1)
      rw [List.cons_append, fraction?, behind]
      exact ⟨_, rfl⟩

theorem fraction_head (fraction rest : List Char) (form : Fraction fraction)
    (stops : ∀ c ∈ rest.head?, isDigit c = false) :
    ∀ c ∈ (fraction ++ rest).head?, isDigit c = false := by
  cases form with
  | none => exact stops
  | some all =>
      intro c first
      cases first
      rfl

/-- Any number is skipped, behind its minus. -/
theorem skipNumeral_parts (whole fraction exponent rest : List Char) (digits : Whole whole)
    (behind : Fraction fraction) (last : Exponent exponent) (ends : Ends rest) :
    skipNumeral (whole ++ (fraction ++ (exponent ++ rest))) = .ok rest := by
  have head := exponent_head exponent rest last ends
  obtain ⟨exponent?, taken⟩ := exponent_taken exponent rest last ends
  obtain ⟨fraction?, found⟩ := fraction_taken fraction (exponent ++ rest) behind head
  have stops := fraction_head fraction (exponent ++ rest) behind fun c first => (head c first).1
  rw [skipNumeral, numeral_parts whole _ _ rest _ _ digits stops found taken]

end Read
end SymbolTable
