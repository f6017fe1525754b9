/-!
What kind of declaration an entry stands for.
-/
namespace SymbolTable

inductive Kind where
  | variable
  | method
  | «class»
  | block
  | program
  deriving DecidableEq, Repr

namespace Kind

def all : List Kind :=
  [.variable, .method, .class, .block, .program]

def text : Kind → String
  | .variable => "variable"
  | .method => "method"
  | .class => "class"
  | .block => "block"
  | .program => "program"

def isClassMember : Kind → Bool
  | .variable | .method | .class => true
  | .block | .program => false

end Kind
end SymbolTable
