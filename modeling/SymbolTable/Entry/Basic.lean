import SymbolTable.Ty
import SymbolTable.Table
import SymbolTable.Class.Registry
import SymbolTable.Entry.Kind

/-!
Entries and the scopes they own. A variable is a leaf; a method, a class and a
block own a table of further entries. The program owns the outermost table and
is never itself bound, so it is no entry. Constructors refuse an empty name.
-/
namespace SymbolTable

/-- A field, a parameter or a local. -/
structure Variable where
  name : String
  ty : Ty
  deriving DecidableEq, Repr

/-- What stands at the head of a scope that can be bound in another. The first
`paramCount` bindings of a method are its parameters. -/
inductive Header where
  | method (name : String) (returns : Ty) (paramCount : Nat)
  | class (name : String) (super? : Option ClassId)
  | block (label : String)
  deriving DecidableEq, Repr

inductive Entry where
  | leaf (declared : Variable)
  | scope (header : Header) (table : Table Entry)
  deriving Repr

inductive Owner where
  | program (name : String)
  | nested (header : Header)
  deriving DecidableEq, Repr

structure Scope where
  owner : Owner
  table : Table Entry
  deriving Repr

/-- A program, or an entry that is bound nowhere yet. -/
inductive Tree where
  | program (name : String) (table : Table Entry)
  | ofEntry (entry : Entry)
  deriving Repr

structure Method where
  name : String
  returns : Ty
  paramCount : Nat
  table : Table Entry
  deriving Repr

structure Class where
  name : String
  super? : Option ClassId
  table : Table Entry
  deriving Repr

def Variable.text (declared : Variable) : String :=
  declared.ty.text ++ " " ++ declared.name

namespace Header

def name : Header → String
  | .method name _ _ | .class name _ | .block name => name

def kind : Header → Kind
  | .method .. => .method
  | .class .. => .class
  | .block _ => .block

def ty? : Header → Option Ty
  | .method _ returns _ => some returns
  | _ => none

end Header

namespace Owner

def name : Owner → String
  | .program name => name
  | .nested header => header.name

def kind : Owner → Kind
  | .program _ => .program
  | .nested header => header.kind

end Owner

namespace Scope

def name (scope : Scope) : String := scope.owner.name

def kind (scope : Scope) : Kind := scope.owner.kind

/-- What a name is bound to in this scope; enclosing scopes are not searched. -/
def lookup? (scope : Scope) (name : String) : Option Entry :=
  scope.table.lookup? name

def next (scope : Scope) : Except IterationError (Entry × Table Entry) :=
  scope.table.next scope.name

end Scope

namespace Entry

def name : Entry → String
  | .leaf declared => declared.name
  | .scope header _ => header.name

def kind : Entry → Kind
  | .leaf _ => .variable
  | .scope header _ => header.kind

def ty? : Entry → Option Ty
  | .leaf declared => some declared.ty
  | .scope header _ => header.ty?

def leaf? : Entry → Option Variable
  | .leaf declared => some declared
  | .scope .. => none

def scope? : Entry → Option Scope
  | .leaf _ => none
  | .scope header table => some ⟨.nested header, table⟩

def method? : Entry → Option Method
  | .scope (.method name returns paramCount) table => some ⟨name, returns, paramCount, table⟩
  | _ => none

def class? : Entry → Option Class
  | .scope (.class name super?) table => some ⟨name, super?, table⟩
  | _ => none

end Entry

namespace Tree

def scope? : Tree → Option Scope
  | .program name table => some ⟨.program name, table⟩
  | .ofEntry entry => entry.scope?

def member? : Tree → Option Entry
  | .program .. => none
  | .ofEntry entry => some entry

def name : Tree → String
  | .program name _ => name
  | .ofEntry entry => entry.name

def kind : Tree → Kind
  | .program .. => .program
  | .ofEntry entry => entry.kind

def ty? : Tree → Option Ty
  | .program .. => none
  | .ofEntry entry => entry.ty?

end Tree

def Tree.table : Tree → Table Entry
  | .program _ table => table
  | .ofEntry (.scope _ table) => table
  | .ofEntry (.leaf _) => .empty

def Scope.tree : Scope → Tree
  | ⟨.program name, table⟩ => .program name table
  | ⟨.nested header, table⟩ => .ofEntry (.scope header table)

namespace Method

def entry (method : Method) : Entry :=
  .scope (.method method.name method.returns method.paramCount) method.table

def scope (method : Method) : Scope :=
  ⟨.nested (.method method.name method.returns method.paramCount), method.table⟩

def parameters (method : Method) : List Variable :=
  (method.table.values.take method.paramCount).filterMap Entry.leaf?

def signature (method : Method) : String :=
  method.returns.text ++ " " ++ method.name ++ "(" ++
    ", ".intercalate (method.parameters.map Variable.text) ++ ")"

end Method

namespace Class

def entry (self : Class) : Entry :=
  .scope (.class self.name self.super?) self.table

def scope (self : Class) : Scope :=
  ⟨.nested (.class self.name self.super?), self.table⟩

def fields (self : Class) : List Variable :=
  self.table.values.filterMap Entry.leaf?

def methods (self : Class) : List Method :=
  self.table.values.filterMap Entry.method?

def extend (self : Class) (super : ClassId) : Class :=
  { self with super? := some super }

end Class

theorem Entry.method_some (entry : Entry) (method : Method) (found : entry.method? = some method) :
    entry = method.entry := by
  unfold method? at found
  split at found
  · cases found
    rfl
  · cases found

theorem Entry.class_some (entry : Entry) (self : Class) (found : entry.class? = some self) :
    entry = self.entry := by
  unfold class? at found
  split at found
  · cases found
    rfl
  · cases found

def entryName (name : String) : Except Fault String :=
  if name = "" then .error .unnamedEntry else .ok name

def Variable.new (name : String) (ty : Ty) : Except Fault Variable :=
  (entryName name).map fun name => ⟨name, ty⟩

def Method.new (name : String) (returns : Ty) : Except Fault Method :=
  (entryName name).map fun name => ⟨name, returns, 0, .empty⟩

def Class.new (name : String) : Except Fault Class :=
  (entryName name).map fun name => ⟨name, none, .empty⟩

def Scope.newBlock (label : String) : Except Fault Scope :=
  (entryName label).map fun label => ⟨.nested (.block label), .empty⟩

def Scope.newProgram (name : String) : Except Fault Scope :=
  (entryName name).map fun name => ⟨.program name, .empty⟩

def blockLabel (ordinal : Nat) : String :=
  s!"block#{ordinal}"

end SymbolTable
