import SymbolTable.Diagnostic.Template

/-!
Messages: a number, a severity and the template of a text. The seven that the
analysis of declarations gives are named here; an analyzer may have others.
-/
namespace SymbolTable

inductive Severity where
  | warning
  | error
  deriving DecidableEq, Repr

def Severity.text : Severity → String
  | .warning => "warning"
  | .error => "error"

/-- What a diagnostic keeps of its message. -/
structure Heading where
  code : Nat
  severity : Severity
  deriving DecidableEq, Repr

structure Message extends Heading where
  template : Template
  deriving DecidableEq, Repr

namespace Message

def alreadyDeclared : Message where
  code := 2001
  severity := .error
  template := [.literal "'", .hole 0, .literal "' is already declared in ", .hole 1,
    .literal " '", .hole 2, .literal "'."]

def kindNotAllowed : Message where
  code := 2002
  severity := .error
  template := [.literal "A ", .hole 0, .literal " cannot be declared in class '", .hole 1,
    .literal "'."]

def cyclicInheritance : Message where
  code := 2003
  severity := .error
  template := [.literal "Cyclic inheritance involving class '", .hole 0, .literal "'."]

def parameterAfterBody : Message where
  code := 2004
  severity := .error
  template := [.literal "Parameter '", .hole 0,
    .literal "' must be declared before the body of method '", .hole 1, .literal "'."]

/-- A missing superclass may stand in another unit; all else is wrong here. -/
def superclassNotDeclared : Message where
  code := 2005
  severity := .warning
  template := [.literal "The superclass of '", .hole 0,
    .literal "' is not declared in this compilation unit."]

def inheritsFromCycle : Message where
  code := 2006
  severity := .error
  template := [.literal "Class '", .hole 0, .literal "' inherits from class '", .hole 1,
    .literal "', which is part of an inheritance cycle."]

def unnamedDeclaration : Message where
  code := 2007
  severity := .error
  template := [.literal "A declaration in ", .hole 0, .literal " '", .hole 1,
    .literal "' has no name."]

def all : List Message :=
  [alreadyDeclared, kindNotAllowed, cyclicInheritance, parameterAfterBody,
    superclassNotDeclared, inheritsFromCycle, unnamedDeclaration]

def ofCode? (code : Nat) : Option Message :=
  all.find? fun message => message.code == code

def text (message : Message) (args : List String) : String :=
  Template.fill (String.ofList message.template.chars) args

theorem ofCode?_code (message : Message) (known : message ∈ all) :
    ofCode? message.code = some message := by
  revert message
  decide

end Message
end SymbolTable
