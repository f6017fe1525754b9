import SymbolTable.Diagnostic.Basic
import SymbolTable.Entry.Basic

/-!
Binding names. The first declaration of a name wins: a binding is never
replaced, and a refused one changes nothing. A class looks at the kind of an
entry before anything else; a method takes parameters only as long as it holds
nothing but parameters.
-/
namespace SymbolTable

inductive Refusal where
  | duplicateName (name scope : String) (kind : Kind)
  | disallowedKind (name : String) (kind : Kind) (owner : String)
  | parameterAfterBody (name method : String)
  | emptyName (scope : String) (kind : Kind)
  deriving DecidableEq, Repr

namespace Refusal

def name : Refusal → String
  | .duplicateName name _ _ | .disallowedKind name _ _ | .parameterAfterBody name _ => name
  | .emptyName _ _ => ""

def message : Refusal → String
  | .duplicateName name scope kind => s!"'{name}' is already declared in {kind.text} '{scope}'"
  | .disallowedKind _ kind owner => s!"a {kind.text} cannot be declared in class '{owner}'"
  | .parameterAfterBody name method =>
      s!"parameter '{name}' must be declared before the body of method '{method}'"
  | .emptyName scope kind => s!"a declaration in {kind.text} '{scope}' has no name"

def diagnostic (span : Span) : Refusal → Diagnostic
  | .duplicateName name scope kind => .located span .alreadyDeclared [name, kind.text, scope]
  | .disallowedKind _ kind owner => .located span .kindNotAllowed [kind.text, owner]
  | .parameterAfterBody name method => .located span .parameterAfterBody [name, method]
  | .emptyName scope kind => .located span .unnamedDeclaration [kind.text, scope]

end Refusal

namespace Scope

def admits (scope : Scope) (kind : Kind) : Bool :=
  match scope.kind with
  | .class => kind.isClassMember
  | _ => true

/-- The insertion that every scope builds on. -/
def insert (scope : Scope) (name : String) (entry : Entry) : Except Refusal Scope :=
  if name = "" then
    .error (.emptyName scope.name scope.kind)
  else if scope.table.contains name then
    .error (.duplicateName name scope.name scope.kind)
  else
    .ok { scope with table := scope.table.push name entry }

/-- Binds an entry under a name, which need not be the entry's own. -/
def bind (scope : Scope) (name : String) (entry : Entry) : Except Refusal Scope :=
  if scope.admits entry.kind then
    scope.insert name entry
  else
    .error (.disallowedKind name entry.kind scope.name)

def declare (scope : Scope) (entry : Entry) (span : Span) (diagnostics : Diagnostics) :
    Bool × Scope × Diagnostics :=
  match scope.bind entry.name entry with
  | .ok bound => (true, bound, diagnostics)
  | .error refusal => (false, scope, diagnostics.add (refusal.diagnostic span))

end Scope

namespace Method

def addParameter (method : Method) (parameter : Variable) : Except Refusal Method :=
  -- Anything behind the last parameter belongs to the body.
  if method.paramCount < method.table.size then
    .error (.parameterAfterBody parameter.name method.name)
  else
    (method.scope.insert parameter.name (.leaf parameter)).map fun scope =>
      { method with table := scope.table, paramCount := method.paramCount + 1 }

def declareParameter (method : Method) (parameter : Variable) (span : Span)
    (diagnostics : Diagnostics) : Bool × Method × Diagnostics :=
  match method.addParameter parameter with
  | .ok longer => (true, longer, diagnostics)
  | .error refusal => (false, method, diagnostics.add (refusal.diagnostic span))

end Method
end SymbolTable
