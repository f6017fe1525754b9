import SymbolTable.Session.Basic
import SymbolTable.Entry.Binding

/-!
Blueprints of trees. Building goes in a fixed order: the entry itself, its
parameters or its superclass, then member after member. A member that is
refused is left out; anything else that goes wrong ends the building.
-/
namespace SymbolTable

inductive Blueprint where
  /-- What is bound at a place, with its cursors as they are. -/
  | copy (place : Place)
  | variable (name : String) (ty : Ty)
  | method (name : String) (returns : Ty) (parameters : List (String × Ty))
      (members : List (Option String × Blueprint))
  | class (name : String) (super? : Option String) (members : List (Option String × Blueprint))
  | block (label : String) (members : List (Option String × Blueprint))
  | program (name : String) (members : List (Option String × Blueprint))
  deriving Repr

def Tree.bindable (tree : Tree) : Except Problem Entry :=
  match tree.member? with
  | none => .error .programNotBindable
  | some entry => .ok entry

def Scope.offer (scope : Scope) (name : String) (entry : Entry) : Scope :=
  match scope.bind name entry with
  | .ok bound => bound
  | .error _ => scope

def Method.offer (method : Method) (parameter : Variable) : Method :=
  match method.addParameter parameter with
  | .ok longer => longer
  | .error _ => method

def Method.offerAll (method : Method) : List (String × Ty) → Except Fault Method
  | [] => .ok method
  | (name, ty) :: rest => do
      let parameter ← Variable.new name ty
      (method.offer parameter).offerAll rest

namespace Step

def register (name : String) : Step ClassId :=
  modifyGet fun session =>
    let (id, registry) := session.registry.register name
    (id, { session with registry })

def extended (self : Class) : Option String → Step Class
  | none => return self
  | some super => return self.extend (← register super)

mutual

def build : Blueprint → Step Tree
  | .copy place => treeAt place
  | .variable name ty => do
      return .ofEntry (.leaf (← unlessFault (Variable.new name ty)))
  | .method name returns parameters members => do
      let method ← unlessFault (Method.new name returns)
      let method ← unlessFault (method.offerAll parameters)
      return (← fill method.scope members).tree
  | .class name super? members => do
      let self ← unlessFault (Class.new name)
      let self ← extended self super?
      return (← fill self.scope members).tree
  | .block label members => do
      let block ← unlessFault (Scope.newBlock label)
      return (← fill block members).tree
  | .program name members => do
      let program ← unlessFault (Scope.newProgram name)
      return (← fill program members).tree

/-- Offers member after member, each under its alias or else its own name. -/
def fill (scope : Scope) : List (Option String × Blueprint) → Step Scope
  | [] => return scope
  | (alias?, blueprint) :: rest => do
      let entry ← ofExcept (← build blueprint).bindable
      fill (scope.offer (alias?.getD entry.name) entry) rest

end

def buildEntry (blueprint : Blueprint) : Step Entry := do
  ofExcept (← build blueprint).bindable

end Step
end SymbolTable
