import SymbolTable.Proofs.Cursor.Plain

/-!
What rendering does to the cursors of a tree. It runs the cursor of the scope it
is asked for and, from block to block, those of the blocks in it; a method or a
class on the way shows nothing of what it binds, so rendering goes no further.
Every other cursor stays where it is, and what is bound stays as it is.
-/
namespace SymbolTable

def Scope.viaBlocks (scope : Scope) : List String → Bool
  | [] => true
  | name :: rest =>
      match scope.lookup? name with
      | some (.scope (.block label) table) => viaBlocks ⟨.nested (.block label), table⟩ rest
      | _ => false

def Act.Runs (scope : Scope) : Act → Prop
  | .render => scope.kind = .program ∨ scope.kind = .block
  | .renderBindings => True
  | _ => False

/-- Rendering the bindings at `base` runs the cursor of the scope at `path`. -/
def Tree.Reaches (tree : Tree) (base path : List String) : Prop :=
  ∃ scope rest, tree.scopeAt? base = some scope ∧ path = base ++ rest ∧ scope.viaBlocks rest = true

theorem Table.lookup_exhausted (table : Table Entry) (name : String) :
    table.exhausted.lookup? name = (table.lookup? name).map Entry.exhausted :=
  table.lookup_map _ Entry.exhausted name (exhaustedAll_eq_map table.bindings)

namespace Scope

theorem cursorAt_cons (scope : Scope) (name : String) (rest : List String) (header : Header)
    (table : Table Entry) (found : scope.lookup? name = some (.scope header table)) :
    scope.cursorAt? (name :: rest) = cursorAt? ⟨.nested header, table⟩ rest := by
  rw [cursorAt?, at_cons scope name rest header table found, cursorAt?]

theorem exhausted_at (scope : Scope) (path : List String) :
    cursorAt? ⟨scope.owner, scope.table.exhausted⟩ path =
      if scope.viaBlocks path then (scope.at? path).map fun inner => some inner.table.size
      else scope.cursorAt? path := by
  induction path generalizing scope with
  | nil => rfl
  | cons name rest ih =>
      have reads : lookup? ⟨scope.owner, scope.table.exhausted⟩ name =
          (scope.lookup? name).map Entry.exhausted := scope.table.lookup_exhausted name
      -- Where the name leads to no block, the entry bound there is left as it was.
      have passed : (scope.lookup? name).map Entry.exhausted = scope.lookup? name →
          scope.viaBlocks (name :: rest) = false →
          cursorAt? ⟨scope.owner, scope.table.exhausted⟩ (name :: rest) =
            if scope.viaBlocks (name :: rest) then
              (scope.at? (name :: rest)).map fun inner => some inner.table.size
            else scope.cursorAt? (name :: rest) := by
        intro kept closed
        rw [closed, cursorAt?, at_below scope _ name rest (reads.trans kept)]
        rfl
      cases found : scope.lookup? name with
      | none => exact passed (by rw [found]; rfl) (by rw [viaBlocks, found])
      | some entry =>
          cases entry with
          | leaf declared =>
              exact passed (by rw [found]; simp [Entry.exhausted]) (by rw [viaBlocks, found])
          | scope header table =>
              cases header with
              | block label =>
                  rw [found, Option.map_some, Entry.exhausted_block] at reads
                  rw [cursorAt_cons _ name rest _ _ reads, cursorAt_cons scope name rest _ _ found,
                    at_cons scope name rest _ _ found, viaBlocks, found]
                  exact ih ⟨.nested (.block label), table⟩
              | method title returns paramCount =>
                  exact passed (by rw [found]; simp [Entry.exhausted]) (by rw [viaBlocks, found])
              | «class» title super? =>
                  exact passed (by rw [found]; simp [Entry.exhausted]) (by rw [viaBlocks, found])

end Scope

theorem Act.on_runs (act : Act) (scope : Scope) (runs : act.Runs scope) :
    (act.on scope).2 = scope.table.exhausted := by
  cases act with
  | bind name entry | add name entry => cases runs
  | declare entry span => cases runs
  | reset | next => cases runs
  | layout options classes? => cases runs
  | renderBindings => simp only [on, scope.renderBindings_eq]
  | render =>
      obtain ⟨owner, table⟩ := scope
      simp only [on, Tree.render_eq]
      cases owner with
      | program name => rfl
      | nested header =>
          cases header with
          | block label => rfl
          | method name returns paramCount => rcases runs with absurd | absurd <;> cases absurd
          | «class» name super? => rcases runs with absurd | absurd <;> cases absurd

theorem Entry.exhausted_member (entry : Entry) (member : entry.kind.isClassMember) :
    entry.exhausted = entry := by
  cases entry with
  | leaf declared => simp [exhausted]
  | scope header table =>
      cases header with
      | block label => cases member
      | method name returns paramCount => simp [exhausted]
      | «class» name super? => simp [exhausted]

theorem Tree.exhausted_member (tree : Tree) (member : tree.kind.isClassMember) :
    tree.exhausted = tree := by
  cases tree with
  | program name table => cases member
  | ofEntry entry => rw [exhausted, entry.exhausted_member member]

theorem Scope.tree_kind (scope : Scope) : scope.tree.kind = scope.kind := by
  obtain ⟨owner, table⟩ := scope
  cases owner <;> rfl

theorem Scope.tree_table (scope : Scope) : scope.tree.table = scope.table :=
  scope.tree.scope_table scope scope.tree_scope

theorem Act.on_render_member (scope : Scope) (member : scope.kind.isClassMember) :
    (Act.render.on scope).2 = scope.table := by
  have kept := scope.tree.exhausted_member (scope.tree_kind ▸ member)
  simp only [on, Tree.render_eq, kept, scope.tree_table]

/-- A layout of a well-formed class moves nothing, whether or not it comes to its
end. -/
theorem Act.on_layout (scope : Scope) (sound : scope.WellFormed) (options : RenderOptions)
    (classes? : Option ClassRegistry) :
    ((Act.layout options classes?).on scope).2 = scope.table := by
  simp only [on]
  split
  · rfl
  · rename_i self owned
    split
    · rename_i text laid written
      obtain ⟨owner, table⟩ := scope
      rw [self.layout_ok options classes? laid text written]
      cases owner with
      | program name => cases owned
      | nested header =>
          cases header with
          | block label => cases owned
          | method name returns paramCount => cases owned
          | «class» name super? =>
              cases owned
              exact sound.laidOut options rfl
    · rfl

namespace Tree

theorem cursorAt_below (tree : Tree) (base rest : List String) (act : Act) (scope : Scope)
    (there : tree.scopeAt? base = some scope) :
    (tree.perform (.at base act)).2.cursorAt? (base ++ rest) =
      Scope.cursorAt? ⟨scope.owner, (act.on scope).2⟩ rest := by
  rw [cursorAt?, tree.perform_below base rest act scope there, Scope.cursorAt?]

theorem cursorAt_append (tree : Tree) (base rest : List String) (scope : Scope)
    (there : tree.scopeAt? base = some scope) :
    tree.cursorAt? (base ++ rest) = scope.cursorAt? rest := by
  rw [cursorAt?, tree.scopeAt_append base rest scope there, Scope.cursorAt?]

/-- What is reached ends behind its last binding. -/
theorem perform_runs_reached (tree : Tree) (base path : List String) (act : Act)
    (scope inner : Scope) (there : tree.scopeAt? base = some scope) (runs : act.Runs scope)
    (reached : tree.Reaches base path) (deeper : tree.scopeAt? path = some inner) :
    (tree.perform (.at base act)).2.cursorAt? path = some (some inner.table.size) := by
  obtain ⟨scope', rest, there', same, open'⟩ := reached
  rw [there] at there'
  cases there'
  subst same
  rw [tree.scopeAt_append base rest scope there] at deeper
  rw [tree.cursorAt_below base rest act scope there, act.on_runs scope runs, scope.exhausted_at,
    if_pos open', deeper, Option.map_some]

theorem perform_runs_others (tree : Tree) (base path : List String) (act : Act) (scope : Scope)
    (there : tree.scopeAt? base = some scope) (runs : act.Runs scope)
    (apart : ¬ tree.Reaches base path) :
    (tree.perform (.at base act)).2.cursorAt? path = tree.cursorAt? path := by
  by_cases below : base <+: path
  · obtain ⟨rest, same⟩ := below
    subst same
    have closed : scope.viaBlocks rest ≠ true := by
      intro opened
      exact apart ⟨scope, rest, there, rfl, opened⟩
    rw [tree.cursorAt_below base rest act scope there, act.on_runs scope runs, scope.exhausted_at,
      if_neg closed, tree.cursorAt_append base rest scope there]
  · exact tree.perform_elsewhere base path act below

end Tree

/-- Rendering has this effect on a tree and no other. Showing the bindings of a
scope leaves all that is bound as it is, and of the cursors it moves exactly those
of the scope and of the blocks that blocks lead to, behind the last binding.
Displaying a variable, a method or a class moves none, nor does a layout. -/
theorem rendering_moves (tree : Tree) (obtained : Obtainable tree) (base : List String)
    (scope : Scope) (there : tree.scopeAt? base = some scope) :
    (∀ act : Act, act.Runs scope →
      (tree.perform (.at base act)).2.still = tree.still ∧
      (∀ path inner, tree.Reaches base path → tree.scopeAt? path = some inner →
        (tree.perform (.at base act)).2.cursorAt? path = some (some inner.table.size)) ∧
      ∀ path, ¬ tree.Reaches base path →
        (tree.perform (.at base act)).2.cursorAt? path = tree.cursorAt? path) ∧
    (scope.kind.isClassMember → (tree.perform (.at base .render)).2 = tree) ∧
    (∀ options classes?, (tree.perform (.at base (.layout options classes?))).2 = tree) ∧
    ∀ path part, tree.find path = .ok part → part.kind.isClassMember →
      part.render = .ok (part.text, part) := by
  refine ⟨?_, ?_, ?_, ?_⟩
  · intro act runs
    refine ⟨?_, ?_, ?_⟩
    · apply tree.perform_relabelled id (.at base act)
      cases act <;> first | rfl | cases runs
    · intro path inner reached deeper
      exact tree.perform_runs_reached base path act scope inner there runs reached deeper
    · intro path apart
      exact tree.perform_runs_others base path act scope there runs apart
  · intro member
    exact tree.perform_same base .render scope there (Act.on_render_member scope member)
  · intro options classes?
    have sound := obtained.wellFormed.scopeAt base scope there
    exact tree.perform_same base _ scope there (Act.on_layout scope sound options classes?)
  · intro path part _ member
    rw [part.render_eq, part.exhausted_member member]

/-- A program is rendered in which one block lies in a block and another in a
method of a class, with a traversal of the latter under way. -/
theorem rendering_moves_nested :
    let x : Entry := .leaf ⟨"x", .int⟩
    let block (label : String) : Entry := .scope (.block label) .empty
    let scale : Entry := .scope (.method "scale" .void 0) .empty
    let point : Entry := .scope (.class "Point" none) .empty
    let tree := Tree.run (.program "Main" .empty)
      [.at [] (.bind "P" point), .at ["P"] (.bind "m" scale),
        .at ["P", "m"] (.bind "body" (block "block#0")), .at ["P", "m", "body"] (.bind "x" x),
        .at ["P", "m", "body"] .reset, .at [] (.bind "b" (block "block#1")),
        .at ["b"] (.bind "c" (block "block#2")), .at ["b", "c"] (.bind "x" x)]
    let after := (tree.perform (.at [] .render)).2
    Obtainable tree ∧ after.still = tree.still ∧ after.cursorAt? [] = some (some 2) ∧
      tree.cursorAt? ["b", "c"] = some none ∧ after.cursorAt? ["b", "c"] = some (some 1) ∧
      after.cursorAt? ["P", "m", "body"] = some (some 0) ∧
      (tree.perform (.at ["P"] (.layout .withMembers none))).2 = tree := by
  intro x block scale point tree after
  have xMade : Obtainable (.ofEntry x) := @Obtainable.variable "x" .int ⟨"x", .int⟩ rfl
  have scaleMade : Obtainable (.ofEntry scale) :=
    @Obtainable.method "scale" .void ⟨"scale", .void, 0, .empty⟩ rfl
  have pointMade : Obtainable (.ofEntry point) :=
    @Obtainable.class "Point" ⟨"Point", none, .empty⟩ rfl
  have blockMade (label : String) (named : label ≠ "") : Obtainable (.ofEntry (block label)) :=
    @Obtainable.block label ⟨.nested (.block label), .empty⟩
      (by simp [Scope.newBlock, entryName, named, Except.map])
  have obtained : Obtainable tree :=
    (@Obtainable.program "Main" ⟨.program "Main", .empty⟩ rfl).run _
      (by simp [Operation.brought?, Act.brought?, xMade, scaleMade, pointMade, blockMade])
  have there : tree.scopeAt? [] = some ⟨.program "Main", tree.table⟩ := rfl
  obtain ⟨shown, _⟩ := rendering_moves tree obtained [] _ there
  obtain ⟨_, _, laid, _⟩ := rendering_moves tree obtained ["P"] _ rfl
  obtain ⟨still, reached, others⟩ := shown .render (.inl rfl)
  have apart : ¬ tree.Reaches [] ["P", "m", "body"] := by
    rintro ⟨scope, rest, owned, same, opened⟩
    cases owned
    cases same
    cases opened
  exact ⟨obtained, still, reached [] _ ⟨_, [], there, rfl, rfl⟩ there, rfl,
    reached ["b", "c"] _ ⟨_, ["b", "c"], there, rfl, rfl⟩ rfl, others _ apart,
    laid .withMembers none⟩

end SymbolTable
