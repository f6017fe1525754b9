/-!
Readers. A reader takes what it wants from the front of a text and answers with
a value and the text behind it. The first thing wrong decides the error, so a
reader never looks further than it has to. No reader leaves more text than it
was given.
-/
namespace SymbolTable

inductive ReadError where
  /-- The text ends where more was needed. -/
  | truncated
  | malformed
  /-- Well formed, but not what is wanted in this place. -/
  | unfitting
  deriving DecidableEq, Repr

abbrev Reader (Value : Type) := List Char → Except ReadError (Value × List Char)

def Reader.Consumes {Value : Type} (reader : Reader Value) : Prop :=
  ∀ text value rest, reader text = .ok (value, rest) → rest.length ≤ text.length

namespace Read

def isBlank (c : Char) : Bool :=
  c == ' ' || c == '\t' || c == '\n' || c == '\r'

def blanks (text : List Char) : List Char :=
  text.dropWhile isBlank

def word : List Char → List Char → Except ReadError (List Char)
  | [], text => .ok text
  | _ :: _, [] => .error .truncated
  | c :: more, d :: text => if c = d then word more text else .error .malformed

def isDigit (c : Char) : Bool :=
  '0' ≤ c && c ≤ '9'

def digits : Reader (List Char)
  | [] => .error .truncated
  | c :: rest =>
      if isDigit c then
        .ok (c :: rest.takeWhile isDigit, rest.dropWhile isDigit)
      else
        .error .malformed

theorem of_map {Value Result : Type} {change : Value → Result} {read : Except ReadError Value}
    {result : Result} (found : read.map change = .ok result) :
    ∃ value, read = .ok value ∧ change value = result := by
  cases read with
  | error error => cases found
  | ok value => cases found; exact ⟨value, rfl, rfl⟩

theorem length_dropWhile (test : Char → Bool) (text : List Char) :
    (text.dropWhile test).length ≤ text.length :=
  (List.dropWhile_sublist test).length_le

theorem length_blanks (text : List Char) : (blanks text).length ≤ text.length :=
  length_dropWhile _ _

theorem length_of_blanks {text rest : List Char} {c : Char} (found : blanks text = c :: rest) :
    rest.length < text.length := by
  have bound := length_blanks text
  rw [found] at bound
  exact bound

theorem length_word {letters text rest : List Char} (read : word letters text = .ok rest) :
    rest.length ≤ text.length := by
  induction letters generalizing text with
  | nil => cases read; exact Nat.le_refl _
  | cons c more ih =>
      cases text with
      | nil => cases read
      | cons d text =>
          unfold word at read
          split at read
          · exact Nat.le_succ_of_le (ih read)
          · cases read

theorem length_digits {text taken rest : List Char} (read : digits text = .ok (taken, rest)) :
    rest.length < text.length := by
  cases text with
  | nil => cases read
  | cons c text =>
      by_cases digit : isDigit c
      · rw [digits, if_pos digit] at read
        cases read
        exact Nat.lt_succ_of_le (length_dropWhile _ _)
      · rw [digits, if_neg digit] at read
        cases read

end Read
end SymbolTable
