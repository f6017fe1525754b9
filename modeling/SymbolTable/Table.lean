import SymbolTable.Fault

/-!
Ordered tables with one cursor. A table keeps its bindings in the order they
were made. The cursor is a position among them, absent until the first reset;
it is compared with the bindings as they are when it is asked, so a binding
made behind the last one yielded is still ahead.
-/
namespace SymbolTable

structure Table (Value : Type) where
  bindings : List (String × Value) := []
  cursor : Option Nat := none
  deriving Repr

namespace Table

variable {Value : Type}

def empty : Table Value := ⟨[], none⟩

def size (table : Table Value) : Nat :=
  table.bindings.length

def isEmpty (table : Table Value) : Bool :=
  table.bindings.isEmpty

def lookup? (table : Table Value) (name : String) : Option Value :=
  table.bindings.lookup name

def contains (table : Table Value) (name : String) : Bool :=
  (table.lookup? name).isSome

def values (table : Table Value) : List Value :=
  table.bindings.map Prod.snd

def push (table : Table Value) (name : String) (value : Value) : Table Value :=
  { table with bindings := table.bindings ++ [(name, value)] }

def replaceIn (name : String) (value : Value) : List (String × Value) → List (String × Value)
  | [] => []
  | (key, old) :: rest =>
      if name = key then (key, value) :: rest else (key, old) :: replaceIn name value rest

def replace (table : Table Value) (name : String) (value : Value) : Table Value :=
  { table with bindings := replaceIn name value table.bindings }

def reset (table : Table Value) : Table Value :=
  { table with cursor := some 0 }

/-- The bindings the cursor has not reached; none before the first reset. -/
def ahead (table : Table Value) : List (String × Value) :=
  match table.cursor with
  | none => []
  | some position => table.bindings.drop position

def hasNext (table : Table Value) : Bool :=
  match table.cursor with
  | none => false
  | some position => position < table.bindings.length

/-- Yields the value at the cursor and moves on. `owner` names the scope in
the answer to a misuse. -/
def next (table : Table Value) (owner : String) : Except IterationError (Value × Table Value) :=
  match table.cursor with
  | none => .error (.notStarted owner)
  | some position =>
      match table.bindings[position]? with
      | none => .error (.exhausted owner)
      | some (_, value) => .ok (value, { table with cursor := some (position + 1) })

def putBack (table : Table Value) (value : Value) : Table Value :=
  match table.cursor with
  | some (position + 1) =>
      { table with bindings := table.bindings.modify position fun binding => (binding.1, value) }
  | _ => table

/-- A step of the cursor takes the first of the bindings ahead. -/
theorem ahead_next (table after : Table Value) (owner : String) (value : Value)
    (step : table.next owner = .ok (value, after)) :
    ∃ name, table.ahead = (name, value) :: after.ahead := by
  unfold next at step
  split at step
  · cases step
  · rename_i position started
    split at step
    · cases step
    · rename_i name found there
      cases step
      obtain ⟨inside, same⟩ := List.getElem?_eq_some_iff.mp there
      exact ⟨name, by simp only [ahead, started, List.drop_eq_getElem_cons inside, same]⟩

/-- What is ahead is not changed by a change behind the cursor. -/
theorem ahead_putBack (table : Table Value) (value : Value) :
    (table.putBack value).ahead = table.ahead := by
  unfold putBack
  split
  · rename_i position started
    simp only [ahead, started]
    rw [List.drop_modify_of_lt _ _ _ _ (Nat.lt_succ_self _)]
  · rfl

end Table
end SymbolTable
