import SymbolTable.Entry.Text

/-!
Rendering through the cursors. A block is rendered by resetting its cursor and
taking entry after entry, so its cursor ends behind its last binding, and so do
the cursors of the blocks inside it. Every function here gives the text
together with the entry as rendering leaves it.
-/
namespace SymbolTable

theorem Entry.sizeOf_block (label : String) (table : Table Entry) :
    sizeOf table.reset.ahead < sizeOf (Entry.scope (.block label) table) := by
  obtain ⟨bindings, cursor⟩ := table
  simp [Table.reset, Table.ahead]
  omega

theorem Table.sizeOf_next (table after : Table Entry) (owner : String) (entry : Entry)
    (step : table.next owner = .ok (entry, after)) :
    sizeOf entry < sizeOf table.ahead ∧ sizeOf after.ahead < sizeOf table.ahead := by
  obtain ⟨name, ahead⟩ := table.ahead_next after owner entry step
  simp [ahead]
  omega

mutual

def Entry.render : Entry → Except Fault (String × Entry)
  | .scope (.block label) table =>
      match renderAhead label table.reset with
      | .error fault => .error fault
      | .ok (text, table) => .ok ("\x7b" ++ text ++ "\x7d", .scope (.block label) table)
  | entry => .ok (entry.text, entry)
termination_by entry => sizeOf entry
decreasing_by exact Entry.sizeOf_block _ _

def renderAhead (owner : String) (table : Table Entry) : Except Fault (String × Table Entry) :=
  if table.hasNext then
    match _ : table.next owner with
    | .error misuse => .error (.iteration misuse)
    | .ok (entry, after) =>
        match entry.render with
        | .error fault => .error fault
        | .ok (text, entry) =>
            match renderAhead owner (after.putBack entry) with
            | .error fault => .error fault
            | .ok (rest, table) => .ok (text ++ rest, table)
  else
    .ok ("", table)
termination_by sizeOf table.ahead
decreasing_by
  · exact (table.sizeOf_next after owner _ ‹_›).1
  · rw [Table.ahead_putBack]
    exact (table.sizeOf_next after owner _ ‹_›).2

end

def Scope.renderBindings (scope : Scope) : Except Fault (String × Table Entry) :=
  renderAhead scope.name scope.table.reset

def Tree.render : Tree → Except Fault (String × Tree)
  | .program name table =>
      (renderAhead name table.reset).map fun (text, table) => (text, .program name table)
  | .ofEntry entry => entry.render.map fun (text, entry) => (text, .ofEntry entry)

end SymbolTable
