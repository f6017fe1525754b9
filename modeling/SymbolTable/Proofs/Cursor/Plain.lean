import SymbolTable.Proofs.Path

/-!
What rendering does not depend on. `relabelled` takes a tree without its
cursors and with its binding names changed at will; the text of a tree is that
of any relabelled tree. Moving cursors does not show in the relabelled tree, so
neither the cursors nor what was rendered before can show in a text.
-/
namespace SymbolTable

section
variable (label : String → String)

mutual

/-- The entry without cursors, every binding in it renamed. -/
def Entry.relabelled : Entry → Entry
  | .leaf declared => .leaf declared
  | .scope header ⟨bindings, _⟩ => .scope header ⟨relabelledAll bindings, none⟩

def relabelledAll : List (String × Entry) → List (String × Entry)
  | [] => []
  | (name, entry) :: rest => (label name, entry.relabelled) :: relabelledAll rest

end

def Table.relabelled (table : Table Entry) : Table Entry :=
  ⟨relabelledAll label table.bindings, none⟩

def Scope.relabelled (scope : Scope) : Scope :=
  ⟨scope.owner, scope.table.relabelled label⟩

def Tree.relabelled : Tree → Tree
  | .program name table => .program name (table.relabelled label)
  | .ofEntry entry => .ofEntry (entry.relabelled label)

end

def Tree.still (tree : Tree) : Tree := tree.relabelled id

def Tree.bare (tree : Tree) : Tree := tree.relabelled fun _ => ""

def Operation.Cursory : Operation → Prop
  | .at _ act => act.brought? = none
  | _ => False

section
variable (label : String → String)

theorem relabelledAll_eq_map (bindings : List (String × Entry)) :
    relabelledAll label bindings =
      bindings.map fun binding => (label binding.1, binding.2.relabelled label) := by
  induction bindings with
  | nil => rfl
  | cons binding rest ih => rw [relabelledAll, ih, List.map_cons]

theorem Entry.relabelled_scope (header : Header) (table : Table Entry) :
    (Entry.scope header table).relabelled label = .scope header (table.relabelled label) := rfl

theorem Entry.leaf_relabelled (entry : Entry) : (entry.relabelled label).leaf? = entry.leaf? := by
  cases entry <;> rfl

theorem textAll_relabelled (bindings : List (String × Entry))
    (each : ∀ binding ∈ bindings, (binding.2.relabelled label).text = binding.2.text) :
    textAll (relabelledAll label bindings) = textAll bindings := by
  induction bindings with
  | nil => rfl
  | cons binding rest ih =>
      have head := each binding List.mem_cons_self
      have tail := ih fun other member => each other (List.mem_cons_of_mem _ member)
      rw [relabelledAll, textAll, textAll, head, tail]

theorem Table.parameters_relabelled (table : Table Entry) (name : String) (returns : Ty)
    (paramCount : Nat) : Method.parameters ⟨name, returns, paramCount, table.relabelled label⟩ =
      Method.parameters ⟨name, returns, paramCount, table⟩ := by
  have leaves : ∀ entries : List Entry,
      (entries.map (Entry.relabelled label)).filterMap Entry.leaf? =
        entries.filterMap Entry.leaf? := by
    intro entries
    rw [List.filterMap_map]
    exact congrArg (entries.filterMap ·) (funext fun entry => entry.leaf_relabelled label)
  have values : (table.relabelled label).values = table.values.map (Entry.relabelled label) := by
    simp [Table.values, relabelled, relabelledAll_eq_map]
  simp only [Method.parameters, values, ← List.map_take, leaves]

theorem Entry.text_relabelled (entry : Entry) : (entry.relabelled label).text = entry.text := by
  induction entry with
  | leaf declared => rfl
  | scope header table each =>
      rw [relabelled_scope]
      cases header with
      | block title =>
          obtain ⟨bindings, cursor⟩ := table
          rw [Table.relabelled, Entry.text, Entry.text, textAll_relabelled label bindings each]
      | method name returns paramCount =>
          rw [Entry.text, Entry.text, Method.signature, Method.signature,
            table.parameters_relabelled label]
      | «class» name super? => rw [Entry.text, Entry.text]

theorem Table.text_relabelled (table : Table Entry) :
    textAll (table.relabelled label).bindings = textAll table.bindings :=
  textAll_relabelled label table.bindings fun binding _ => binding.2.text_relabelled label

theorem Tree.text_relabelled (tree : Tree) : (tree.relabelled label).text = tree.text := by
  cases tree with
  | program name table => exact table.text_relabelled label
  | ofEntry entry => exact entry.text_relabelled label

theorem Tree.table_relabelled (tree : Tree) :
    (tree.relabelled label).table = tree.table.relabelled label := by
  cases tree with
  | program name table => rfl
  | ofEntry entry => cases entry <;> rfl

/-- Trees that differ in cursors and binding names only have the same texts. -/
theorem Tree.texts_relabelled {left right : Tree}
    (same : left.relabelled label = right.relabelled label) :
    left.text = right.text ∧ textAll left.table.bindings = textAll right.table.bindings := by
  constructor
  · rw [← left.text_relabelled label, same, right.text_relabelled label]
  · rw [← left.table.text_relabelled label, ← left.table_relabelled label, same,
      right.table_relabelled label, right.table.text_relabelled label]

theorem Table.relabelled_congr (before after : Table Entry) (change : Entry → Entry)
    (mapped : after.bindings = before.bindings.map fun binding => (binding.1, change binding.2))
    (each : ∀ binding ∈ before.bindings,
      (change binding.2).relabelled label = binding.2.relabelled label) :
    after.relabelled label = before.relabelled label := by
  simp only [relabelled, relabelledAll_eq_map, mapped, List.map_map, mk.injEq, and_true]
  apply List.map_congr_left
  intro binding member
  exact Prod.ext rfl (each binding member)

theorem Entry.exhausted_relabelled (entry : Entry) :
    entry.exhausted.relabelled label = entry.relabelled label := by
  induction entry with
  | leaf declared => simp [exhausted]
  | scope header table each =>
      cases header with
      | block title =>
          rw [exhausted_block, relabelled_scope, relabelled_scope,
            table.relabelled_congr label _ exhausted (exhaustedAll_eq_map table.bindings) each]
      | method name returns paramCount => simp [exhausted]
      | «class» name super? => simp [exhausted]

theorem Table.exhausted_relabelled (table : Table Entry) :
    table.exhausted.relabelled label = table.relabelled label :=
  table.relabelled_congr label _ Entry.exhausted (exhaustedAll_eq_map table.bindings)
    fun binding _ => binding.2.exhausted_relabelled label

theorem Table.laidOut_relabelled (options : RenderOptions) (table : Table Entry)
    (each : ∀ binding ∈ table.bindings,
      (binding.2.laidOut options).relabelled label = binding.2.relabelled label) :
    (table.laidOut options).relabelled label = table.relabelled label := by
  obtain ⟨bindings, cursor⟩ := table
  rw [laidOut]
  split
  · exact relabelled_congr label ⟨bindings, cursor⟩ _ (Entry.laidOut options)
      (laidOutAll_eq_map options bindings) each
  · rfl

theorem Entry.laidOut_relabelled (options : RenderOptions) (entry : Entry) :
    (entry.laidOut options).relabelled label = entry.relabelled label := by
  induction entry with
  | leaf declared => simp [laidOut, exhausted_relabelled]
  | scope header table each =>
      cases header with
      | block title => simp [laidOut, exhausted_relabelled]
      | method name returns paramCount => simp [laidOut, exhausted_relabelled]
      | «class» name super? =>
          rw [laidOut, relabelled_scope, relabelled_scope,
            table.laidOut_relabelled label options each]

/-- The step lemma for one scope: what is not a binding made is a cursor moved. -/
theorem Scope.Change.relabelled {scope : Scope} {after : Table Entry}
    (changed : scope.Change none after) :
    after.relabelled label = scope.table.relabelled label := by
  cases changed with
  | kept => rfl
  | bound brings => cases brings
  | moved => rfl
  | rendered => exact scope.table.exhausted_relabelled label
  | @laidOut options =>
      exact scope.table.laidOut_relabelled label options fun binding _ =>
        binding.2.laidOut_relabelled label options

theorem Table.replace_relabelled (table : Table Entry) (name : String) (old new : Entry)
    (found : table.lookup? name = some old) (same : new.relabelled label = old.relabelled label) :
    (table.replace name new).relabelled label = table.relabelled label := by
  obtain ⟨before, behind, split, replaced⟩ := table.replace_splits name old new found
  simp [relabelled, relabelledAll_eq_map, split, replaced, same]

theorem Scope.edit_relabelled {Reply : Type} (change : Scope → Reply × Table Entry)
    (kept : ∀ scope, (change scope).2.relabelled label = scope.table.relabelled label)
    (scope after : Scope) (path : List String) (reply : Reply)
    (edited : scope.edit change path = some (reply, after)) :
    after.relabelled label = scope.relabelled label := by
  induction path generalizing scope after with
  | nil =>
      cases edited
      rw [relabelled, kept scope]
      rfl
  | cons name rest ih =>
      obtain ⟨header, table, inner, found, inside, same⟩ :=
        edit_cons change scope after name rest reply edited
      have deeper := congrArg Scope.table (ih ⟨.nested header, table⟩ inner inside)
      subst same
      rw [relabelled, scope.table.replace_relabelled label name (.scope header table) _ found]
      · rfl
      · exact congrArg (Entry.scope header) deeper

theorem Scope.tree_relabelled (scope : Scope) :
    scope.tree.relabelled label = (scope.relabelled label).tree := by
  obtain ⟨owner, table⟩ := scope
  cases owner <;> rfl

theorem Tree.perform_relabelled (tree : Tree) (operation : Operation)
    (cursory : operation.Cursory) :
    (tree.perform operation).2.relabelled label = tree.relabelled label := by
  cases operation with
  | «at» path act =>
      have kept : ∀ scope, (act.on scope).2.relabelled label = scope.table.relabelled label := by
        intro scope
        have changed := act.on_change scope
        rw [show act.brought? = none from cursory] at changed
        exact changed.relabelled label
      cases there : tree.scopeAt? path with
      | none => rw [tree.perform_nowhere path act there]
      | some target =>
          obtain ⟨scope, after, same, _, edited, performed⟩ := tree.perform_at path act target there
          rw [performed, same, Scope.tree_relabelled, Scope.tree_relabelled,
            scope.edit_relabelled label act.on kept after path _ edited]
  | bindParameter parameter => cases cursory
  | addParameter parameter => cases cursory
  | declareParameter parameter span => cases cursory
  | extend super => cases cursory

theorem Tree.run_relabelled (tree : Tree) (operations : List Operation)
    (cursory : ∀ operation ∈ operations, operation.Cursory) :
    (tree.run operations).relabelled label = tree.relabelled label := by
  induction operations generalizing tree with
  | nil => rfl
  | cons operation rest ih =>
      have first := tree.perform_relabelled label operation (cursory operation List.mem_cons_self)
      have others := ih (tree.perform operation).2
        fun other member => cursory other (List.mem_cons_of_mem _ member)
      exact others.trans first

theorem Tree.scope_relabelled (tree : Tree) :
    (tree.relabelled label).scope? = tree.scope?.map (Scope.relabelled label) := by
  cases tree with
  | program name table => rfl
  | ofEntry entry => cases entry <;> rfl

end

/-- Trees that differ in cursors only have the same paths, to parts that differ
in cursors only. -/
theorem Tree.find_still {before after part : Tree} (same : after.still = before.still)
    (path : List String) (found : before.find path = .ok part) :
    ∃ later, after.find path = .ok later ∧ later.still = part.still := by
  induction path generalizing before after with
  | nil =>
      cases found
      exact ⟨after, rfl, same⟩
  | cons name rest ih =>
      obtain ⟨scope, entry, owned, bound, onward⟩ := (before.find_cons part name rest).mp found
      have scopes : after.scope?.map (Scope.relabelled id) = some (scope.relabelled id) := by
        rw [← after.scope_relabelled, ← still, same, still, before.scope_relabelled, owned,
          Option.map_some]
      obtain ⟨scope', owned', alike⟩ := Option.map_eq_some_iff.mp scopes
      have reads : ∀ table : Table Entry, (table.relabelled id).lookup? name =
          (table.lookup? name).map (Entry.relabelled id) := fun table =>
        table.lookup_map _ _ name (relabelledAll_eq_map id table.bindings)
      have entries : (scope'.table.lookup? name).map (Entry.relabelled id) =
          some (entry.relabelled id) := by
        rw [← reads, show scope'.table.relabelled id = scope.table.relabelled id from
          congrArg Scope.table alike, reads, show scope.table.lookup? name = some entry from bound,
          Option.map_some]
      obtain ⟨entry', bound', alike'⟩ := Option.map_eq_some_iff.mp entries
      have stills : (Tree.ofEntry entry').still = (Tree.ofEntry entry).still :=
        congrArg Tree.ofEntry alike'
      obtain ⟨later, there, kept⟩ := ih stills onward
      refine ⟨later, ?_, kept⟩
      exact (after.find_cons later name rest).mpr ⟨scope', entry', owned', bound', there⟩

/-- Rendering ends with these texts: of the part as it is displayed, and of its
bindings if it is a scope. -/
structure Tree.Renders (part : Tree) (text bindings : String) : Prop where
  displayed : ∃ after, part.render = .ok (text, after)
  listed : ∀ scope, part.scope? = some scope →
    ∃ after, scope.renderBindings = .ok (bindings, after)

theorem Tree.scope_table (tree : Tree) (scope : Scope) (owned : tree.scope? = some scope) :
    tree.table = scope.table := by
  rw [← tree.scope_tree scope owned]
  obtain ⟨owner, table⟩ := scope
  cases owner <;> rfl

theorem Tree.renders_plain (part : Tree) :
    part.Renders part.text (textAll part.table.bindings) := by
  constructor
  · exact ⟨part.exhausted, part.render_eq⟩
  · intro scope owned
    rw [part.scope_table scope owned]
    exact ⟨scope.table.exhausted, scope.renderBindings_eq⟩

theorem RenderOptions.indent_zero (options : RenderOptions) : options.indent 0 = .ok "" := by
  simp [indent, longestText]

/-- Under default options a class shows none of its members. -/
theorem Class.layout_default (self : Class) :
    self.layout .default none = .ok (self.entry.text, self) := by
  obtain ⟨name, super?, bindings, cursor⟩ := self
  have header : RenderOptions.default.extendsClause none super? = "" := rfl
  have braces : " \x7b\n" ++ "\x7d\n" = " \x7b\n\x7d\n" := rfl
  rw [entry, Entry.text, classText, ← braces]
  simp only [layout, layoutTable, RenderOptions.indent_zero, header, String.append_assoc,
    String.empty_append]
  rfl

/-- Rendering through the cursors gives the text of the recursion on entries
alone, wherever the cursors stand, whatever the bindings are called, and however
often anything was rendered or traversed before. -/
theorem rendering_plain (tree : Tree) (path : List String) (part : Tree)
    (found : tree.find path = .ok part) :
    part.Renders part.text (textAll part.table.bindings) ∧
      (∀ self, part.class? = some self → self.layout .default none = .ok (part.text, self)) ∧
      (∀ other : Tree, other.bare = part.bare →
        other.Renders part.text (textAll part.table.bindings)) ∧
      ∀ operations : List Operation, (∀ operation ∈ operations, operation.Cursory) →
        ∃ later, (tree.run operations).find path = .ok later ∧
          later.Renders part.text (textAll part.table.bindings) := by
  have alike : ∀ label (other : Tree), other.relabelled label = part.relabelled label →
      other.Renders part.text (textAll part.table.bindings) := by
    intro label other same
    obtain ⟨text, bindings⟩ := Tree.texts_relabelled label same
    rw [← text, ← bindings]
    exact other.renders_plain
  refine ⟨part.renders_plain, ?_, alike _, ?_⟩
  · intro self owned
    rw [part.class_some self owned]
    exact self.layout_default
  · intro operations cursory
    have same := tree.run_relabelled id operations cursory
    obtain ⟨later, there, kept⟩ := Tree.find_still same path found
    exact ⟨later, there, alike id later kept⟩

/-- A block with its cursor half way, next to one that binds the same under
other names and was never traversed. -/
theorem rendering_plain_stale :
    let x : Entry := .leaf ⟨"x", .int⟩
    let scale (cursor : Option Nat) : Entry :=
      .scope (.method "scale" .void 1) ⟨[("by", .leaf ⟨"by", .float⟩), ("t", x)], cursor⟩
    let block : Entry := .scope (.block "block#0") ⟨[("a", x), ("s", scale (some 2))], some 1⟩
    let other : Entry := .scope (.block "block#0") ⟨[("x", x), ("scale", scale none)], none⟩
    let tree : Tree := .program "Main" ⟨[("b", block)], some 0⟩
    let operations : List Operation := [.at ["b"] .next, .at [] .render, .at ["b", "s"] .reset]
    tree.find ["b"] = .ok (.ofEntry block) ∧
      (Tree.ofEntry block).Renders "\x7bint xvoid scale(float by)\x7d" "int xvoid scale(float by)" ∧
      (Tree.ofEntry other).Renders "\x7bint xvoid scale(float by)\x7d" "int xvoid scale(float by)" ∧
      ∃ later, (tree.run operations).find ["b"] = .ok later ∧
        later.Renders "\x7bint xvoid scale(float by)\x7d" "int xvoid scale(float by)" := by
  intro x scale block other tree operations
  have found : tree.find ["b"] = .ok (.ofEntry block) := rfl
  have text : (Tree.ofEntry block).text = "\x7bint xvoid scale(float by)\x7d" := rfl
  have bindings : textAll (Tree.ofEntry block).table.bindings = "int xvoid scale(float by)" := rfl
  obtain ⟨plain, _, alike, after⟩ := rendering_plain tree ["b"] (.ofEntry block) found
  rw [text, bindings] at plain alike after
  have cursory : ∀ operation ∈ operations, operation.Cursory := by
    simp [operations, Operation.Cursory, Act.brought?]
  exact ⟨found, plain, alike (.ofEntry other) rfl, after operations cursory⟩

end SymbolTable
