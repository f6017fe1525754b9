import SymbolTable.Entry.Basic

/-!
Entries as text, by recursion on the entries alone: no cursor is asked. A class
shows no member here. `Entry.render` gives the same text through the cursors.
-/
namespace SymbolTable

/-- A class without its members. -/
def classText (name : String) : String :=
  "class " ++ name ++ " \x7b\n\x7d\n"

mutual

def Entry.text : Entry → String
  | .leaf declared => declared.text
  | .scope (.method name returns paramCount) table =>
      Method.signature ⟨name, returns, paramCount, table⟩
  | .scope (.class name _) _ => classText name
  | .scope (.block _) ⟨bindings, _⟩ => "\x7b" ++ textAll bindings ++ "\x7d"

def textAll : List (String × Entry) → String
  | [] => ""
  | (_, entry) :: rest => entry.text ++ textAll rest

end

def Tree.text : Tree → String
  | .program _ table => textAll table.bindings
  | .ofEntry entry => entry.text

end SymbolTable
