import SymbolTable.Config.Reader.Quoted
import SymbolTable.Config.Reader.Numeral

/-!
Values that nobody wants. They are checked for their form and dropped, to any
depth: the brackets that are open are kept in a list, innermost first.
-/
namespace SymbolTable.Read

inductive Bracket where
  | array
  | object
  deriving DecidableEq, Repr

def Bracket.closing : Bracket → Char
  | .array => ']'
  | .object => '}'

def skipScalar : List Char → Except ReadError (List Char)
  | [] => .error .truncated
  | 'n' :: rest => word ['u', 'l', 'l'] rest
  | 't' :: rest => word ['r', 'u', 'e'] rest
  | 'f' :: rest => word ['a', 'l', 's', 'e'] rest
  | '"' :: rest => skipQuoted rest
  | '-' :: rest => skipNumeral rest
  | c :: rest => if isDigit c then skipNumeral (c :: rest) else .error .malformed

def skipKey (text : List Char) : Except ReadError (List Char) :=
  match blanks text with
  | [] => .error .truncated
  | '"' :: rest =>
      match skipQuoted rest with
      | .error error => .error error
      | .ok rest =>
          match blanks rest with
          | [] => .error .truncated
          | ':' :: rest => .ok rest
          | _ => .error .malformed
  | _ => .error .malformed

theorem length_skipScalar {text rest : List Char} (read : skipScalar text = .ok rest) :
    rest.length < text.length := by
  unfold skipScalar at read
  split at read
  · cases read
  · exact Nat.lt_succ_of_le (length_word read)
  · exact Nat.lt_succ_of_le (length_word read)
  · exact Nat.lt_succ_of_le (length_word read)
  · exact Nat.lt_succ_of_lt (length_skipQuoted read)
  · exact Nat.lt_succ_of_lt (length_skipNumeral read)
  · split at read
    · exact length_skipNumeral read
    · cases read

theorem length_skipKey {text rest : List Char} (read : skipKey text = .ok rest) :
    rest.length < text.length := by
  unfold skipKey at read
  split at read
  · cases read
  · rename_i start
    split at read
    · cases read
    · rename_i key
      split at read
      · cases read
      · rename_i colon
        cases read
        have := length_of_blanks start
        have := length_skipQuoted key
        have := length_of_blanks colon
        omega
      · cases read
  · cases read

mutual

/-- A value is due. -/
def skipOpen (outer : List Bracket) (text : List Char) : Except ReadError (List Char) :=
  match _ : blanks text with
  | '[' :: rest =>
      match _ : blanks rest with
      | ']' :: rest => skipClose outer rest
      | [] => .error .truncated
      | _ => skipOpen (.array :: outer) rest
  | '{' :: rest =>
      match _ : blanks rest with
      | '}' :: rest => skipClose outer rest
      | [] => .error .truncated
      | _ =>
          match _ : skipKey rest with
          | .error error => .error error
          | .ok rest => skipOpen (.object :: outer) rest
  | scalar =>
      match _ : skipScalar scalar with
      | .error error => .error error
      | .ok rest => skipClose outer rest
termination_by text.length
decreasing_by
  · have := length_of_blanks ‹blanks text = _›
    have := length_of_blanks ‹blanks _ = ']' :: _›
    omega
  · exact length_of_blanks ‹_›
  · have := length_of_blanks ‹blanks text = _›
    have := length_of_blanks ‹blanks _ = '\x7d' :: _›
    omega
  · have := length_of_blanks ‹blanks text = _›
    have := length_skipKey ‹_›
    omega
  · have := length_blanks text
    have := length_skipScalar ‹_›
    simp_all
    omega

/-- A value has ended inside the open brackets. -/
def skipClose (outer : List Bracket) (text : List Char) : Except ReadError (List Char) :=
  match outer with
  | [] => .ok text
  | bracket :: outer =>
      match _ : blanks text with
      | [] => .error .truncated
      | c :: rest =>
          if c = ',' then
            match bracket with
            | .array => skipOpen (.array :: outer) rest
            | .object =>
                match _ : skipKey rest with
                | .error error => .error error
                | .ok rest => skipOpen (.object :: outer) rest
          else if c = bracket.closing then
            skipClose outer rest
          else
            .error .malformed
termination_by text.length
decreasing_by
  · exact length_of_blanks ‹_›
  · have := length_of_blanks ‹blanks text = _›
    have := length_skipKey ‹_›
    omega
  · exact length_of_blanks ‹_›

end

theorem length_skip (text : List Char) : ∀ outer rest,
    (skipOpen outer text = .ok rest → rest.length ≤ text.length) ∧
    (skipClose outer text = .ok rest → rest.length ≤ text.length) := by
  intro outer rest
  constructor
  · intro read
    unfold skipOpen at read
    split at read
    · rename_i start
      split at read
      · rename_i closed
        have := length_of_blanks start
        have := length_of_blanks closed
        have := (length_skip _ outer rest).2 read
        omega
      · cases read
      · have := length_of_blanks start
        have := (length_skip _ _ rest).1 read
        omega
    · rename_i start
      split at read
      · rename_i closed
        have := length_of_blanks start
        have := length_of_blanks closed
        have := (length_skip _ outer rest).2 read
        omega
      · cases read
      · split at read
        · cases read
        · rename_i key
          have := length_of_blanks start
          have := length_skipKey key
          have := (length_skip _ _ rest).1 read
          omega
    · split at read
      · cases read
      · rename_i scalar
        have := length_blanks text
        have := length_skipScalar scalar
        have := (length_skip _ outer rest).2 read
        omega
  · intro read
    unfold skipClose at read
    split at read
    · cases read
      exact Nat.le_refl _
    · split at read
      · cases read
      · rename_i found
        have := length_of_blanks found
        split at read
        · split at read
          · have := (length_skip _ _ rest).1 read
            omega
          · split at read
            · cases read
            · rename_i key
              have := length_skipKey key
              have := (length_skip _ _ rest).1 read
              omega
        · split at read
          · have := (length_skip _ _ rest).2 read
            omega
          · cases read
termination_by text.length

def skipValue (text : List Char) : Except ReadError (List Char) :=
  skipOpen [] text

theorem length_skipValue {text rest : List Char} (read : skipValue text = .ok rest) :
    rest.length ≤ text.length :=
  (length_skip text [] rest).1 read

end SymbolTable.Read
