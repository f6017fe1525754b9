/-!
Broken contracts. A fault is not an answer about the program being analysed:
its caller asked for something that has no value. Everything an analysis can
meet in a source text is a refusal instead and has a type of its own.
-/
namespace SymbolTable

inductive IterationError where
  | notStarted (scope : String)
  | exhausted (scope : String)
  deriving DecidableEq, Repr

namespace IterationError

def scope : IterationError → String
  | .notStarted scope | .exhausted scope => scope

def message : IterationError → String
  | .notStarted scope =>
      s!"no iteration in progress over scope '{scope}'; call reset_iteration first"
  | .exhausted scope => s!"iteration over scope '{scope}' is exhausted"

end IterationError

inductive Fault where
  | unnamedEntry
  | positionTooLarge
  | indentProductTooLarge
  | indentTooLong
  | iteration (error : IterationError)
  deriving DecidableEq, Repr

def Fault.message : Fault → String
  | .unnamedEntry => "entry names must not be empty"
  | .positionTooLarge => "attempt to add with overflow"
  | .indentProductTooLarge => "attempt to multiply with overflow"
  | .indentTooLong => "capacity overflow"
  | .iteration error => error.message

end SymbolTable
