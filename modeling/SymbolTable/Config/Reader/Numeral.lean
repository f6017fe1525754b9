import SymbolTable.Config.Reader.Basic

/-!
Numerals: digits, a fraction, an exponent. The form comes first. A numeral that
is wanted for its value must also be within the range of double precision: its
significand is gathered from the digits as long as it fits a word of 64 bits,
and what it leaves out of the integer part counts as powers of ten.
-/
namespace SymbolTable

structure Numeral where
  whole : List Char
  fraction? : Option (List Char)
  /-- Whether the exponent is negative, and its digits. -/
  exponent? : Option (Bool × List Char)
  deriving DecidableEq, Repr

namespace Numeral

def digit (c : Char) : Nat :=
  c.toNat - '0'.toNat

def natural (digits : List Char) : Nat :=
  digits.foldl (fun value c => value * 10 + digit c) 0

def word? (numeral : Numeral) : Option UInt64 :=
  match numeral with
  | ⟨whole, none, none⟩ =>
      if natural whole < UInt64.size then some (UInt64.ofNat (natural whole)) else none
  | _ => none

/-- Adds digits to a significand up to the first that does not fit. The rest of
the digits comes with it. -/
def gather : Nat → List Char → Nat × List Char
  | significand, [] => (significand, [])
  | significand, c :: rest =>
      let next := significand * 10 + digit c
      if next < UInt64.size then gather next rest else (significand, c :: rest)

/-- The significand, and the power of ten it is to be multiplied by. -/
def scaled (numeral : Numeral) : Nat × Int :=
  let (integral, left) := gather 0 numeral.whole
  let fraction := numeral.fraction?.getD []
  let (significand, ignored) := gather integral fraction
  let shift : Int := left.length - (fraction.length - ignored.length : Nat)
  let power : Int := match numeral.exponent? with
    | none => 0
    | some (false, digits) => natural digits
    | some (true, digits) => -natural digits
  (significand, shift + power)

/-- The double nearest to a whole number, of two the even one. -/
def nearestDouble (value : Nat) : Nat :=
  if value < Nat.pow 2 53 then
    value
  else
    let unit := Nat.pow 2 (value.log2 - 52)
    let below := value / unit
    let excess := value % unit
    if unit < 2 * excess || (unit == 2 * excess && below % 2 == 1) then
      (below + 1) * unit
    else
      below * unit

/-- The least number that rounds to no double. -/
def doublesEnd : Nat :=
  Nat.pow 2 1024 - Nat.pow 2 970

/-- Whether a numeral is beyond all doubles. Neither zero nor a fraction is. -/
def isTooLarge (numeral : Numeral) : Bool :=
  match numeral.scaled with
  | (0, _) => false
  | (_, .negSucc _) => false
  | (significand, .ofNat power) =>
      308 < power ||
        doublesEnd ≤ nearestDouble significand * nearestDouble (Nat.pow 10 power)

end Numeral

namespace Read

def fraction? : Reader (Option (List Char))
  | '.' :: rest => (digits rest).map fun (digits, rest) => (some digits, rest)
  | rest => .ok (none, rest)

def sign : List Char → Bool × List Char
  | '-' :: rest => (true, rest)
  | '+' :: rest => (false, rest)
  | rest => (false, rest)

def exponent? : Reader (Option (Bool × List Char))
  | c :: rest =>
      if c = 'e' ∨ c = 'E' then
        let (negative, rest) := sign rest
        (digits rest).map fun (digits, rest) => (some (negative, digits), rest)
      else
        .ok (none, c :: rest)
  | [] => .ok (none, [])

def numeral (text : List Char) : Except ReadError (Numeral × List Char) :=
  match digits text with
  | .error error => .error error
  | .ok ('0' :: _ :: _, _) => .error .malformed
  | .ok (whole, rest) =>
      match fraction? rest with
      | .error error => .error error
      | .ok (fraction?, rest) =>
          match exponent? rest with
          | .error error => .error error
          | .ok (exponent?, rest) => .ok (⟨whole, fraction?, exponent?⟩, rest)

def number (text : List Char) : Except ReadError (Numeral × List Char) :=
  match numeral text with
  | .error error => .error error
  | .ok (numeral, rest) => if numeral.isTooLarge then .error .malformed else .ok (numeral, rest)

/-- The text behind a numeral of any size. A numeral that is cut off is no
numeral here, whatever would follow. -/
def skipNumeral (text : List Char) : Except ReadError (List Char) :=
  match numeral text with
  | .error _ => .error .malformed
  | .ok (_, rest) => .ok rest

theorem length_fraction? {text rest : List Char} {taken : Option (List Char)}
    (read : fraction? text = .ok (taken, rest)) : rest.length ≤ text.length := by
  unfold fraction? at read
  split at read
  · obtain ⟨_, found, same⟩ := of_map read
    cases same
    exact Nat.le_succ_of_le (Nat.le_of_lt (length_digits found))
  · cases read
    exact Nat.le_refl _

theorem length_sign (text : List Char) : (sign text).2.length ≤ text.length := by
  unfold sign
  split <;> simp

theorem length_exponent? {text rest : List Char} {taken : Option (Bool × List Char)}
    (read : exponent? text = .ok (taken, rest)) : rest.length ≤ text.length := by
  unfold exponent? at read
  split at read
  · split at read
    · rename_i behind _
      obtain ⟨_, found, same⟩ := of_map read
      cases same
      exact Nat.le_succ_of_le
        (Nat.le_trans (Nat.le_of_lt (length_digits found)) (length_sign behind))
    · cases read
      exact Nat.le_refl _
  · cases read
    exact Nat.le_refl _

theorem length_numeral {text rest : List Char} {taken : Numeral}
    (read : numeral text = .ok (taken, rest)) : rest.length < text.length := by
  unfold numeral at read
  split at read
  · cases read
  · cases read
  · rename_i whole
    split at read
    · cases read
    · rename_i fraction
      split at read
      · cases read
      · rename_i exponent
        cases read
        exact Nat.lt_of_le_of_lt (Nat.le_trans (length_exponent? exponent)
          (length_fraction? fraction)) (length_digits whole)

theorem length_number {text rest : List Char} {taken : Numeral}
    (read : number text = .ok (taken, rest)) : rest.length < text.length := by
  unfold number at read
  split at read
  · cases read
  · rename_i found
    split at read
    · cases read
    · cases read
      exact length_numeral found

theorem length_skipNumeral {text rest : List Char} (read : skipNumeral text = .ok rest) :
    rest.length < text.length := by
  unfold skipNumeral at read
  split at read
  · cases read
  · rename_i found
    cases read
    exact length_numeral found

end Read
end SymbolTable
