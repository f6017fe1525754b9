import SymbolTable.Config.Reader
import SymbolTable.Entry.Path
import SymbolTable.Diagnostic.Basic

/-!
Sessions. A session holds trees in named slots, one class registry and one
collection of diagnostics, and is changed by commands. Here is what a session
consists of and how a place in it is found; a place is a slot and a path.
-/
namespace SymbolTable

structure Place where
  slot : String
  path : List String
  deriving DecidableEq, Repr

inductive Problem where
  | fault (fault : Fault)
  | iteration (error : IterationError)
  | config (error : ReadError)
  | noSlot
  | notFound
  | notAScope
  | noNestedScope
  | notAClass
  | notAMethod
  | programNotBindable
  deriving DecidableEq, Repr

def PathError.problem : PathError → Problem
  | .notAScope => .notAScope
  | .notFound => .notFound
  | .noNestedScope => .noNestedScope

abbrev Slots := List (String × Tree)

namespace Slots

def put (slots : Slots) (slot : String) (tree : Tree) : Slots :=
  (slot, tree) :: slots.filter fun filled => filled.1 != slot

def tree (slots : Slots) (slot : String) : Except Problem Tree :=
  match slots.lookup slot with
  | none => .error .noSlot
  | some tree => .ok tree

def find (slots : Slots) (place : Place) : Except Problem Tree := do
  let root ← slots.tree place.slot
  (root.find place.path).mapError PathError.problem

end Slots

structure Session where
  slots : Slots
  registry : ClassRegistry
  diagnostics : Diagnostics
  deriving Repr

def Session.empty : Session := ⟨[], .empty, .empty⟩

/-- A step of a session. What it has changed before a problem stays changed. -/
abbrev Step := ExceptT Problem (StateM Session)

namespace Step

def ofExcept {Value : Type} (result : Except Problem Value) : Step Value :=
  ExceptT.mk (pure result)

/-- Something that a caller may not ask for ends the step. -/
def unlessFault {Value : Type} (result : Except Fault Value) : Step Value :=
  ofExcept (result.mapError .fault)

def treeAt (place : Place) : Step Tree := do
  ofExcept ((← get).slots.find place)

def scopeAt (place : Place) : Step Scope := do
  match (← treeAt place).scope? with
  | none => throw .notAScope
  | some scope => return scope

def classAt (place : Place) : Step Class := do
  match (← treeAt place).member?.bind Entry.class? with
  | none => throw .notAClass
  | some self => return self

def fillSlot (slot : String) (tree : Tree) : Step Unit :=
  modify fun session => { session with slots := session.slots.put slot tree }

def edit {Answer : Type} (place : Place) (change : Scope → Answer × Table Entry) :
    Step Answer := do
  let root ← ofExcept ((← get).slots.tree place.slot)
  let (answer, root) ← ofExcept ((root.edit change place.path).mapError PathError.problem)
  fillSlot place.slot root
  return answer

def store (place : Place) (table : Table Entry) : Step Unit :=
  edit place fun _ => ((), table)

end Step
end SymbolTable
