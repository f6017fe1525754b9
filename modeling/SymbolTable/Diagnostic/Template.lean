/-!
Message templates: text with numbered holes. Holes are filled one number after
the other, in the text as the earlier ones left it, so a hole that an argument
brings along is filled by a later argument.
-/
namespace SymbolTable

inductive Part where
  | literal (text : String)
  | hole (number : Nat)
  deriving DecidableEq, Repr

abbrev Template := List Part

def Template.hole (number : Nat) : List Char :=
  '{' :: Nat.toDigits 10 number ++ ['}']

def Part.chars : Part → List Char
  | .literal text => text.toList
  | .hole number => Template.hole number

namespace Template

def chars (template : Template) : List Char :=
  template.flatMap Part.chars

/-- Puts `arg` for every occurrence of `pattern`, leftmost first. The first
`skip` characters belong to an occurrence already replaced. -/
def replace (pattern arg : List Char) : Nat → List Char → List Char
  | _, [] => []
  | skip + 1, _ :: rest => replace pattern arg skip rest
  | 0, c :: rest =>
      if pattern.isPrefixOf (c :: rest) then
        arg ++ replace pattern arg (pattern.length - 1) rest
      else
        c :: replace pattern arg 0 rest

def fillFrom : Nat → List (List Char) → List Char → List Char
  | _, [], text => text
  | number, arg :: args, text =>
      fillFrom (number + 1) args (replace (hole number) arg 0 text)

def fill (text : String) (args : List String) : String :=
  String.ofList (fillFrom 0 (args.map String.toList) text.toList)

theorem replace_drop (pattern arg text : List Char) (skip : Nat) :
    replace pattern arg skip text = replace pattern arg 0 (text.drop skip) := by
  induction text generalizing skip with
  | nil => cases skip <;> simp [replace]
  | cons c rest ih => cases skip with
    | zero => rfl
    | succ skip => simp [replace, ih]

end Template
end SymbolTable
