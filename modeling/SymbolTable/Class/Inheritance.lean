import SymbolTable.Diagnostic.Basic
import SymbolTable.Entry.Basic

/-!
Superclass links. A link is a class number; the registry gives its name, and
the name is looked up in the scope that is searched. A chain of links ends at a
class without superclass, at a link that leads nowhere, or where it comes back
to a name it has already passed.
-/
namespace SymbolTable

inductive ChainEnd where
  | root
  | unresolved (link : ClassId)
  /-- The chain came back to this class. -/
  | cycle (name : String)
  deriving DecidableEq, Repr

namespace ClassRegistry

def resolve (registry : ClassRegistry) (id : ClassId) (scope : Scope) : Option Class :=
  (registry.nameOf? id).bind fun name => (scope.lookup? name).bind Entry.class?

def unseen (registry : ClassRegistry) (seen : List String) : List String :=
  registry.names.filter fun name => !seen.contains name

theorem unseen_shorter (registry : ClassRegistry) (seen : List String) (name : String)
    (fresh : name ∉ seen) (member : name ∈ registry.names) :
    (registry.unseen (name :: seen)).length < (registry.unseen seen).length := by
  have split : registry.unseen (name :: seen) = (registry.unseen seen).filter (· != name) := by
    unfold unseen
    rw [List.filter_filter]
    congr 1
    funext other
    by_cases same : other = name <;> simp [same, fresh]
  rw [split]
  exact List.length_filter_lt_length_iff_exists.mpr
    ⟨name, List.mem_filter.mpr ⟨member, by simpa using fresh⟩, by simp⟩

/-- The names on the chain of links from `current`, nearest first, and how the
chain ends. `seen` holds the names passed so far. -/
def walk (registry : ClassRegistry) (scope : Scope) (seen : List String) (current : Class) :
    List String × ChainEnd :=
  match current.super? with
  | none => ([], .root)
  | some id =>
      match _ : registry.nameOf? id with
      | none => ([], .unresolved id)
      | some name =>
          -- A name passed before ends the walk whether or not it is bound.
          if _ : name ∈ seen then
            ([], .cycle name)
          else
            match registry.resolve id scope with
            | none => ([], .unresolved id)
            | some next =>
                let (names, stop) := walk registry scope (name :: seen) next
                (name :: names, stop)
termination_by (registry.unseen seen).length
decreasing_by exact registry.unseen_shorter seen _ ‹_› (List.mem_of_getElem? ‹_›)

def superclassChain (registry : ClassRegistry) (start : Class) (scope : Scope) : List String :=
  (registry.walk scope [start.name] start).1

def chainEnd (registry : ClassRegistry) (start : Class) (scope : Scope) : ChainEnd :=
  (registry.walk scope [start.name] start).2

def unsoundness (span : Span) (name : String) : ChainEnd → Option Diagnostic
  | .root => none
  | .unresolved _ => some (.located span .superclassNotDeclared [name])
  | .cycle entered =>
      if entered = name then
        some (.located span .cyclicInheritance [name])
      else
        some (.located span .inheritsFromCycle [name, entered])

def inheritanceProblems (registry : ClassRegistry) (scope : Scope) (span : Span) :
    List Diagnostic :=
  (scope.table.values.filterMap Entry.class?).filterMap fun member =>
    unsoundness span member.name (registry.chainEnd member scope)

def checkInheritance (registry : ClassRegistry) (scope : Scope) (span : Span)
    (diagnostics : Diagnostics) : Bool × Diagnostics :=
  let problems := registry.inheritanceProblems scope span
  (problems.isEmpty, problems.foldl Diagnostics.add diagnostics)

end ClassRegistry
end SymbolTable
