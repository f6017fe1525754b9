import Mathlib.Data.List.Forall2

/-!
Texts of JSON values, in all the ways in which a value can be written: with blanks
between the tokens, with escapes in the strings, and nested to any depth. The texts are
described from outside; no reader has a part in it.
-/
namespace SymbolTable.Json

def Blanks (text : List Char) : Prop :=
  ∀ c ∈ text, c ∈ [' ', '\t', '\n', '\r']

theorem Blanks.nil : Blanks [] :=
  List.forall_mem_nil _

def Digits (text : List Char) : Prop :=
  text ≠ [] ∧ ∀ c ∈ text, c.isDigit = true

def Whole (text : List Char) : Prop :=
  Digits text ∧ (text.head? = some '0' → text = ['0'])

inductive Fraction : List Char → Prop where
  | none : Fraction []
  | some {digits} : Digits digits → Fraction ('.' :: digits)

inductive Exponent : List Char → Prop where
  | none : Exponent []
  | some {mark sign digits} : mark = 'e' ∨ mark = 'E' →
      sign = [] ∨ sign = ['+'] ∨ sign = ['-'] → Digits digits →
      Exponent (mark :: (sign ++ digits))

inductive Number : List Char → Prop where
  | parts {minus whole fraction exponent} : minus = [] ∨ minus = ['-'] → Whole whole →
      Fraction fraction → Exponent exponent → Number (minus ++ (whole ++ (fraction ++ exponent)))

def HexDigit (value : Nat) (c : Char) : Prop :=
  value < 16 ∧ (c = Nat.digitChar value ∨ c = (Nat.digitChar value).toUpper)

inductive CodeUnit : Nat → List Char → Prop where
  | digits {first second third fourth a b c d} : HexDigit first a → HexDigit second b →
      HexDigit third c → HexDigit fourth d →
      CodeUnit (first * 0x1000 + second * 0x100 + third * 0x10 + fourth) [a, b, c, d]

def Plain (c : Char) : Prop :=
  c ≠ '"' ∧ c ≠ '\\' ∧ 0x20 ≤ c.toNat

def letters : List (Char × Char) :=
  [('"', '"'), ('\\', '\\'), ('/', '/'), ('b', '\x08'), ('f', '\x0c'), ('n', '\n'), ('r', '\r'),
    ('t', '\t')]

/-- What stands for a character in a string. A character beyond the first plane is
escaped by two code units. -/
inductive Spells : Char → List Char → Prop where
  | plain {c} : Plain c → Spells c [c]
  | letter {letter c} : (letter, c) ∈ letters → Spells c ['\\', letter]
  | unit {c digits} : CodeUnit c.toNat digits → Spells c ('\\' :: 'u' :: digits)
  | pair {c leading trailing} : 0x10000 ≤ c.toNat →
      CodeUnit (0xD800 + (c.toNat - 0x10000) / 0x400) leading →
      CodeUnit (0xDC00 + (c.toNat - 0x10000) % 0x400) trailing →
      Spells c ('\\' :: 'u' :: (leading ++ '\\' :: 'u' :: trailing))

/-- A piece of any string. Code units need not stand for a character. -/
inductive Piece : List Char → Prop where
  | plain {c} : Plain c → Piece [c]
  | letter {letter c} : (letter, c) ∈ letters → Piece ['\\', letter]
  | unit {value digits} : CodeUnit value digits → Piece ('\\' :: 'u' :: digits)

def inQuotes (pieces : List (List Char)) : List Char :=
  '"' :: (pieces.flatten ++ ['"'])

def Quoted (text : List Char) : Prop :=
  ∃ pieces, (∀ piece ∈ pieces, Piece piece) ∧ text = inQuotes pieces

def Spelling (meant : String) (text : List Char) : Prop :=
  ∃ pieces, List.Forall₂ Spells meant.toList pieces ∧ text = inQuotes pieces

/-- What stands behind an entry: the other entries, each behind a comma, and the
bracket that closes them. -/
inductive Row (closing : Char) : List (List Char) → List Char → Prop where
  | closed {gap} : Blanks gap → Row closing [] (gap ++ [closing])
  | next {before after entry entries rest} : Blanks before → Blanks after →
      Row closing entries rest →
      Row closing (entry :: entries) (before ++ ',' :: (after ++ (entry ++ rest)))

inductive Enclosed (opening closing : Char) : List (List Char) → List Char → Prop where
  | empty {gap} : Blanks gap → Enclosed opening closing [] (opening :: (gap ++ [closing]))
  | entries {gap entry entries rest} : Blanks gap → Row closing entries rest →
      Enclosed opening closing (entry :: entries) (opening :: (gap ++ (entry ++ rest)))

structure Member where
  key : List Char
  before : List Char
  after : List Char
  value : List Char

def Member.text (member : Member) : List Char :=
  member.key ++ (member.before ++ ':' :: (member.after ++ member.value))

def Member.Spaced (member : Member) : Prop :=
  Blanks member.before ∧ Blanks member.after

inductive Value : List Char → Prop where
  | word {text} : text ∈ ["null".toList, "true".toList, "false".toList] → Value text
  | number {text} : Number text → Value text
  | string {text} : Quoted text → Value text
  | array {items text} : (∀ item ∈ items, Value item) → Enclosed '[' ']' items text → Value text
  | object {members : List Member} {text} :
      (∀ member ∈ members, member.Spaced ∧ Quoted member.key) →
      (∀ member ∈ members, Value member.value) →
      Enclosed '{' '}' (members.map Member.text) text → Value text

/-- Members that give certain items, each once and in this order, and any others under
keys that are not known. -/
inductive Giving {Item : Type} (keys : List String) (key : Item → String)
    (Written : Item → List Char → Prop) : List Item → List Member → Prop where
  | none : Giving keys key Written [] []
  | given {item items member members} : member.Spaced → Spelling (key item) member.key →
      Written item member.value → Giving keys key Written items members →
      Giving keys key Written (item :: items) (member :: members)
  | unknown {name items member members} : name ∉ keys → member.Spaced →
      Spelling name member.key → Value member.value → Giving keys key Written items members →
      Giving keys key Written items (member :: members)

end SymbolTable.Json
