import SymbolTable.Session.Blueprint

/-!
Commands to a session, and what a session replies.
-/
namespace SymbolTable

/-- How a parameter is added: with the refusal as the answer, and its diagnostic
for a span if there is one; with a truth value as the answer; or declared, so
that a refusal is reported to the session. -/
inductive Manner where
  | answered (span? : Option Span)
  | silent
  | declared (span : Span)
  deriving DecidableEq, Repr

inductive OptionsSource where
  | given (options : GivenOptions)
  | members
  | config (text : String)
  deriving DecidableEq, Repr

inductive Command where
  | new (slot : String) (blueprint : Blueprint)
  | bind (place : Place) (name : String) (blueprint : Blueprint) (span? : Option Span)
  /-- The same with a truth value as the answer. -/
  | add (place : Place) (name : String) (blueprint : Blueprint)
  | declare (place : Place) (blueprint : Blueprint) (span : Span)
  | parameter (slot : String) (name : String) (ty : Ty) (manner : Manner)
  | extendByName (slot : String) (super : String)
  | extendById (slot : String) (super : ClassId)
  | lookup (place : Place) (name : String)
  | contains (place : Place) (name : String)
  | sizes (place : Place)
  | list (place : Place)
  | reachScope (place : Place)
  | inspect (place : Place)
  | reset (place : Place)
  | hasNext (place : Place)
  /-- A step of the cursor that must not fail. -/
  | next (place : Place)
  | tryNext (place : Place)
  | render (place : Place)
  | renderBindings (place : Place)
  | layout (place : Place) (source : OptionsSource) (named : Bool)
  | register (name : String)
  | idOf (name : String)
  | nameOf (id : ClassId)
  | registered
  | resolve (place : Place) (id : ClassId)
  | chain (start : Place) (place : Place)
  | check (place : Place) (span : Span)
  | report (diagnostic : Diagnostic)
  | sort
  | diagnostics
  deriving Repr

structure Description where
  kind : Kind
  name : String
  ty? : Option Ty
  /-- The number of bindings; a variable has none to count. -/
  size? : Option Nat
  deriving DecidableEq, Repr

def Tree.description (tree : Tree) : Description :=
  ⟨tree.kind, tree.name, tree.ty?, tree.scope?.map fun scope => scope.table.size⟩

def Entry.description (entry : Entry) : Description :=
  (Tree.ofEntry entry).description

inductive Detail where
  | variable (ty : Ty)
  | method (returns : Ty) (paramCount : Nat) (parameters : List String)
  | class (super? : Option ClassId) (fields methods : List String)
  | block (label : String)
  | program
  deriving DecidableEq, Repr

def Tree.detail : Tree → Detail
  | .program .. => .program
  | .ofEntry (.leaf declared) => .variable declared.ty
  | .ofEntry (.scope (.method name returns paramCount) table) =>
      let method : Method := ⟨name, returns, paramCount, table⟩
      .method returns paramCount (method.parameters.map Variable.text)
  | .ofEntry (.scope (.class name super?) table) =>
      let self : Class := ⟨name, super?, table⟩
      .class super? (self.fields.map Variable.text) (self.methods.map Method.signature)
  | .ofEntry (.scope (.block label) _) => .block label

inductive Reply where
  | done
  | truth (value : Bool)
  | count (value : Nat)
  | text (value : String)
  | texts (values : List String)
  | classId (id : ClassId)
  | number (id? : Option ClassId)
  | name (name? : Option String)
  | described (description? : Option Description)
  | listed (bindings : List (String × Description))
  | sized (size : Nat) (isEmpty : Bool)
  | reached (scope : Scope)
  | inspected (description : Description) (detail : Detail)
  | bound (refusal? : Option Refusal) (span? : Option Span)
  | registered (registry : ClassRegistry)
  | checked (sound : Bool) (added : List Diagnostic)
  | diagnostics (diagnostics : Diagnostics)
  deriving Repr

end SymbolTable
