import SymbolTable.Entry.Basic

/-!
Paths into a tree: binding names, from the outside in. Reading a path ends at
whatever is bound there. A change goes through scopes only, and what it can
change is the table of the scope it ends at: no path reaches a binding itself,
so names, headers and parameter counts on the way stay as they are.
-/
namespace SymbolTable

inductive PathError where
  | notAScope
  | notFound
  | noNestedScope
  deriving DecidableEq, Repr

def Tree.find (tree : Tree) : List String → Except PathError Tree
  | [] => .ok tree
  | name :: rest =>
      match tree.scope? with
      | none => .error .notAScope
      | some scope =>
          match scope.lookup? name with
          | none => .error .notFound
          | some entry => (Tree.ofEntry entry).find rest

namespace Scope

variable {Answer : Type}

/-- Changes the table of the scope at the end of a path; none if some name on
the path is not bound to a scope. -/
def edit (change : Scope → Answer × Table Entry) (scope : Scope) :
    List String → Option (Answer × Scope)
  | [] =>
      let (answer, table) := change scope
      some (answer, { scope with table })
  | name :: rest =>
      match scope.lookup? name with
      | some (.scope header table) =>
          match edit change ⟨.nested header, table⟩ rest with
          | some (answer, inner) =>
              let table := scope.table.replace name (.scope header inner.table)
              some (answer, { scope with table })
          | none => none
      | _ => none

end Scope

def Tree.edit {Answer : Type} (change : Scope → Answer × Table Entry) (tree : Tree)
    (path : List String) : Except PathError (Answer × Tree) :=
  match tree.scope? with
  | none => .error .notAScope
  | some scope =>
      match scope.edit change path with
      | none => .error .noNestedScope
      | some (answer, scope) => .ok (answer, scope.tree)

end SymbolTable
