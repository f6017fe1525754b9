import SymbolTable.Proofs.WellFormed

/-!
Bindings are permanent. `Table.Grown` relates a table to a later state of it:
each position keeps its name and what is bound there keeps its header, new
bindings stand behind the old ones, and the same holds inside. Every operation
grows the tables it changes, so every run does.
-/
namespace SymbolTable

inductive Entry.Grown : Entry → Entry → Prop where
  | leaf {declared} : Grown (.leaf declared) (.leaf declared)
  | scope {header} {before after : Table Entry} : before.names <+: after.names →
      (∀ (position : Nat) earlier later, before.values[position]? = some earlier →
        after.values[position]? = some later → Grown earlier later) →
      Grown (.scope header before) (.scope header after)

def Table.Grown (before after : Table Entry) : Prop :=
  before.names <+: after.names ∧
    ∀ (position : Nat) earlier later, before.values[position]? = some earlier →
      after.values[position]? = some later → earlier.Grown later

theorem Entry.grown_scope (header : Header) (before after : Table Entry) :
    (Entry.scope header before).Grown (.scope header after) ↔ before.Grown after := by
  constructor
  · intro grown
    cases grown with
    | scope names values => exact ⟨names, values⟩
  · rintro ⟨names, values⟩
    exact .scope names values

theorem Table.Grown.size {before after : Table Entry} (grown : before.Grown after) :
    before.size ≤ after.size := by
  have longer := grown.1.length_le
  simpa [Table.names_length] using longer

/-- A later state has the same name at the same position. -/
theorem Table.Grown.position {before after : Table Entry} (grown : before.Grown after)
    (position : Nat) (name : String) (earlier : Entry)
    (bound : before.bindings[position]? = some (name, earlier)) :
    ∃ later, after.bindings[position]? = some (name, later) ∧ earlier.Grown later := by
  have inside : position < after.bindings.length :=
    Nat.lt_of_lt_of_le (List.getElem?_eq_some_iff.mp bound).1 grown.size
  obtain ⟨found, there⟩ : ∃ found, after.bindings[position]? = some found :=
    ⟨_, List.getElem?_eq_getElem inside⟩
  have named : before.names[position]? = some name := by simp [names, bound]
  have kept : after.names[position]? = some name := by
    obtain ⟨more, split⟩ := grown.1
    rw [← split, List.getElem?_append_left (List.getElem?_eq_some_iff.mp named).1, named]
  have same : found.1 = name := by simpa [names, there] using kept
  refine ⟨found.2, by rw [there, ← same], ?_⟩
  exact grown.2 position earlier found.2 (by simp [values, bound]) (by simp [values, there])

theorem Table.Grown.lookup {before after : Table Entry} (grown : before.Grown after)
    (name : String) (earlier : Entry) (found : before.lookup? name = some earlier) :
    ∃ later, after.lookup? name = some later ∧ earlier.Grown later := by
  obtain ⟨position, bound, first⟩ := before.lookup_first name earlier found
  obtain ⟨later, there, inner⟩ := grown.position position name earlier bound
  refine ⟨later, after.lookup_of_first name later position there ?_, inner⟩
  intro nearer inside
  have old : nearer < before.names.length := by
    have bounded := (List.getElem?_eq_some_iff.mp bound).1
    rw [names, List.length_map]
    omega
  -- New names stand behind the old ones, so none can come before the first.
  obtain ⟨more, split⟩ := grown.1
  rw [← split, List.getElem?_append_left old]
  exact first nearer inside

theorem Entry.Grown.refl (entry : Entry) : entry.Grown entry := by
  induction entry with
  | leaf declared => exact .leaf
  | scope header table each =>
      refine .scope (List.prefix_refl _) ?_
      intro position earlier later first second
      rw [first] at second
      cases second
      obtain ⟨binding, inside, same⟩ := List.mem_map.mp (List.mem_of_getElem? first)
      exact same ▸ each binding inside

theorem Entry.Grown.trans {first middle last : Entry} (before : first.Grown middle)
    (after : middle.Grown last) : first.Grown last := by
  induction before generalizing last with
  | leaf => exact after
  | @scope header old new names values ih =>
      cases after with
      | @scope _ _ newest names' values' =>
          refine .scope (names.trans names') ?_
          intro position earlier later there here
          -- What is bound there in the first table is bound there in the middle one.
          have reached : position < new.values.length := by
            have longer := names.length_le
            have inside := (List.getElem?_eq_some_iff.mp there).1
            simp only [Table.names, Table.values, List.length_map] at *
            omega
          have between := List.getElem?_eq_getElem reached
          exact ih position earlier _ there between (values' position _ later between here)

theorem Table.Grown.refl (table : Table Entry) : table.Grown table :=
  (Entry.grown_scope (.block "") table table).mp (.refl _)

theorem Table.Grown.trans {first middle last : Table Entry} (before : first.Grown middle)
    (after : middle.Grown last) : first.Grown last := by
  have opened := (Entry.grown_scope (.block "") first middle).mpr before
  have closed := (Entry.grown_scope (.block "") middle last).mpr after
  exact (Entry.grown_scope _ _ _).mp (opened.trans closed)

theorem Table.Grown.of_bindings {before after : Table Entry}
    (same : after.bindings = before.bindings) : before.Grown after := by
  have grown := Table.Grown.refl before
  simpa only [Table.Grown, names, values, same] using grown

theorem Table.Grown.of_append {before after : Table Entry} (more : List (String × Entry))
    (split : after.bindings = before.bindings ++ more) : before.Grown after := by
  have longer : after.values = before.values ++ more.map Prod.snd := by simp [values, split]
  refine ⟨⟨more.map Prod.fst, by simp [names, split]⟩, ?_⟩
  intro position earlier later first second
  have inside := (List.getElem?_eq_some_iff.mp first).1
  rw [longer, List.getElem?_append_left inside] at second
  exact (Table.Grown.refl before).2 position earlier later first second

theorem Table.Grown.of_map {before after : Table Entry} (change : Entry → Entry)
    (mapped : after.bindings = before.bindings.map fun binding => (binding.1, change binding.2))
    (each : ∀ binding ∈ before.bindings, binding.2.Grown (change binding.2)) :
    before.Grown after := by
  have named : after.names = before.names := by simp [names, mapped]
  refine ⟨named ▸ List.prefix_refl _, ?_⟩
  intro position earlier later first second
  simp only [values, mapped, List.map_map, List.getElem?_map, Option.map_eq_some_iff] at first second
  obtain ⟨binding, there, same⟩ := first
  obtain ⟨other, here, changed⟩ := second
  rw [there] at here
  cases here
  subst same
  subst changed
  exact each binding (List.mem_of_getElem? there)

theorem Table.Grown.replace (table : Table Entry) (name : String) (old new : Entry)
    (found : table.lookup? name = some old) (inner : old.Grown new) :
    table.Grown (table.replace name new) := by
  obtain ⟨before, behind, split, replaced⟩ := table.replace_splits name old new found
  refine ⟨table.names_replace name old new found ▸ List.prefix_refl _, ?_⟩
  intro position earlier later first second
  simp only [values, split, replaced, List.map_append, List.map_cons] at first second
  -- Left and right of the place both tables hold the same.
  rcases Nat.lt_trichotomy position (before.map Prod.snd).length with left | here | right
  · rw [List.getElem?_append_left left] at first second
    rw [first] at second
    cases second
    exact .refl earlier
  · subst here
    simp only [List.getElem?_append_right (Nat.le_refl _), Nat.sub_self,
      List.getElem?_cons_zero, Option.some.injEq] at first second
    subst first
    subst second
    exact inner
  · obtain ⟨offset, beyond⟩ := Nat.exists_eq_add_of_lt right
    subst beyond
    rw [List.getElem?_append_right (by omega), Nat.add_assoc, Nat.add_sub_cancel_left,
      List.getElem?_cons_succ] at first second
    rw [first] at second
    cases second
    exact .refl earlier

theorem Entry.Grown.exhausted (entry : Entry) : entry.Grown entry.exhausted := by
  induction entry with
  | leaf declared => simpa [Entry.exhausted] using Entry.Grown.leaf
  | scope header table each =>
      cases header with
      | block label =>
          rw [exhausted_block, Entry.grown_scope]
          exact .of_map Entry.exhausted (exhaustedAll_eq_map table.bindings) each
      | method name returns paramCount => simpa [Entry.exhausted] using Entry.Grown.refl _
      | «class» name super? => simpa [Entry.exhausted] using Entry.Grown.refl _

theorem Table.Grown.exhausted (table : Table Entry) : table.Grown table.exhausted :=
  .of_map Entry.exhausted (exhaustedAll_eq_map table.bindings) fun binding _ => .exhausted binding.2

theorem Table.Grown.laidOut_of (options : RenderOptions) (table : Table Entry)
    (each : ∀ binding ∈ table.bindings, binding.2.Grown (binding.2.laidOut options)) :
    table.Grown (table.laidOut options) := by
  obtain ⟨bindings, cursor⟩ := table
  rw [Table.laidOut]
  split
  · exact .of_map (Entry.laidOut options) (laidOutAll_eq_map options bindings) each
  · exact .refl _

theorem Entry.Grown.laidOut (options : RenderOptions) (entry : Entry) :
    entry.Grown (entry.laidOut options) := by
  induction entry with
  | leaf declared => simpa [Entry.laidOut] using Entry.Grown.exhausted _
  | scope header table each =>
      cases header with
      | block label => simpa [Entry.laidOut] using Entry.Grown.exhausted _
      | method name returns paramCount => simpa [Entry.laidOut] using Entry.Grown.exhausted _
      | «class» name super? =>
          rw [Entry.laidOut, Entry.grown_scope]
          exact .laidOut_of options table each

/-- The step lemma for one scope. -/
theorem Scope.Change.grown {scope : Scope} {brought? : Option Entry} {after : Table Entry}
    (changed : scope.Change brought? after) : scope.table.Grown after := by
  cases changed with
  | kept => exact .refl _
  | @bound name entry bound _ made =>
      obtain ⟨_, _, _, same⟩ := scope.bind_ok bound name entry made
      subst same
      exact .of_append [(name, entry)] rfl
  | moved => exact .of_bindings rfl
  | rendered => exact .exhausted scope.table
  | @laidOut options => exact .laidOut_of options scope.table fun binding _ => .laidOut options binding.2

theorem Scope.edit_grown (scope after : Scope) (act : Act) (path : List String) (answer : Answer)
    (edited : scope.edit act.on path = some (answer, after)) : scope.table.Grown after.table := by
  induction path generalizing scope after with
  | nil =>
      cases edited
      exact (act.on_change scope).grown
  | cons name rest ih =>
      obtain ⟨header, table, inner, found, inside, same⟩ :=
        Scope.edit_cons act.on scope after name rest answer edited
      have deeper := ih ⟨.nested header, table⟩ inner inside
      subst same
      exact .replace scope.table name _ _ found ((Entry.grown_scope header _ _).mpr deeper)

/-- A later state of a tree: its outermost scope is the same one, grown. The
root's parameters and superclass are its own matter. -/
def Tree.Grown (before after : Tree) : Prop :=
  ∀ scope, before.scope? = some scope → ∃ later, after.scope? = some later ∧
    later.kind = scope.kind ∧ later.name = scope.name ∧ scope.table.Grown later.table

theorem Tree.Grown.refl (tree : Tree) : tree.Grown tree := by
  intro scope owned
  exact ⟨scope, owned, rfl, rfl, .refl _⟩

theorem Tree.Grown.trans {first middle last : Tree} (before : first.Grown middle)
    (after : middle.Grown last) : first.Grown last := by
  intro scope owned
  obtain ⟨between, owns, kind, name, grown⟩ := before scope owned
  obtain ⟨later, keeps, kind', name', more⟩ := after between owns
  exact ⟨later, keeps, kind'.trans kind, name'.trans name, grown.trans more⟩

theorem Entry.Grown.tree {earlier later : Entry} (grown : earlier.Grown later) :
    (Tree.ofEntry earlier).Grown (.ofEntry later) := by
  intro scope owned
  cases grown with
  | leaf => cases owned
  | scope names values =>
      cases owned
      exact ⟨_, rfl, rfl, rfl, names, values⟩

theorem Scope.tree_scope (scope : Scope) : scope.tree.scope? = some scope := by
  obtain ⟨owner, table⟩ := scope
  cases owner <;> rfl

theorem Tree.Change.grown {tree after : Tree} {brought? : Option Entry}
    (changed : tree.Change brought? after) : tree.Grown after := by
  cases changed with
  | kept => exact .refl tree
  | @edited scope after act path answer owned _ edited =>
      intro found owns
      rw [owned] at owns
      cases owns
      have same := Scope.edit_owner act.on scope after path answer edited
      refine ⟨after, after.tree_scope, ?_, ?_, scope.edit_grown after act path answer edited⟩
      · rw [Scope.kind, same, Scope.kind]
      · rw [Scope.name, same, Scope.name]
  | @longer method after parameter same _ made =>
      subst same
      intro scope owned
      cases owned
      obtain ⟨_, _, _, longer⟩ := method.addParameter_ok after parameter made
      subst longer
      exact ⟨_, rfl, rfl, rfl, .of_append [(parameter.name, .leaf parameter)] rfl⟩
  | @extended self super same =>
      subst same
      intro scope owned
      cases owned
      exact ⟨_, rfl, rfl, rfl, .refl _⟩

/-- Every run grows the tree it runs on. -/
theorem Tree.run_grown (tree : Tree) (operations : List Operation) :
    tree.Grown (tree.run operations) := by
  induction operations generalizing tree with
  | nil => exact .refl tree
  | cons operation rest ih => exact (tree.perform_change operation).grown.trans (ih _)

theorem Tree.Grown.find {before after part : Tree} (grown : before.Grown after)
    (path : List String) (found : before.find path = .ok part) :
    ∃ later, after.find path = .ok later ∧ part.Grown later := by
  induction path generalizing before after with
  | nil =>
      cases found
      exact ⟨after, rfl, grown⟩
  | cons name rest ih =>
      obtain ⟨scope, earlier, owned, bound, onward⟩ := (before.find_cons part name rest).mp found
      obtain ⟨scope', owns, _, _, more⟩ := grown scope owned
      obtain ⟨entry, kept, inner⟩ := more.lookup name earlier bound
      obtain ⟨later, there, deeper⟩ := ih inner.tree onward
      exact ⟨later, (after.find_cons later name rest).mpr ⟨scope', entry, owns, kept, there⟩, deeper⟩

/-- The parameters of a well-formed method are what they were, whatever its
body has gained. -/
theorem Table.Grown.parameters {before after : Table Entry} (grown : before.Grown after)
    (name : String) (returns : Ty) (paramCount : Nat)
    (sound : Scope.WellFormed ⟨.nested (.method name returns paramCount), before⟩) :
    Method.parameters ⟨name, returns, paramCount, after⟩ =
      Method.parameters ⟨name, returns, paramCount, before⟩ := by
  obtain ⟨bounded, leaves⟩ := sound.1.parameters name returns paramCount rfl
  have kept : ∀ position < paramCount, after.values[position]? = before.values[position]? := by
    intro position parameter
    obtain ⟨binding, there⟩ : ∃ binding, before.bindings[position]? = some binding :=
      ⟨_, List.getElem?_eq_getElem (Nat.lt_of_lt_of_le parameter bounded)⟩
    have front : binding ∈ before.bindings.take paramCount :=
      List.mem_of_getElem? ((List.getElem?_take_of_lt parameter).trans there)
    obtain ⟨declared, leaf⟩ := leaves binding front
    subst leaf
    -- A parameter is a leaf, and a leaf does not grow.
    obtain ⟨later, here, inner⟩ := grown.position position _ _ there
    cases inner
    simp [Table.values, there, here]
  have same : after.values.take paramCount = before.values.take paramCount := by
    apply List.ext_getElem?
    intro position
    rw [List.getElem?_take, List.getElem?_take]
    split
    · exact kept position ‹_›
    · rfl
  simp only [Method.parameters, same]

/-- What no later run changes of a bound entry. -/
structure Entry.Preserved (entry kept : Entry) : Prop where
  kind : kept.kind = entry.kind
  name : kept.name = entry.name
  ty : kept.ty? = entry.ty?
  method : ∀ method, entry.method? = some method → ∃ later, kept.method? = some later ∧
    later.paramCount = method.paramCount ∧ later.signature = method.signature
  super : ∀ self, entry.class? = some self → ∃ later, kept.class? = some later ∧
    later.super? = self.super?
  nested : ∀ path scope, (Tree.ofEntry entry).scopeAt? path = some scope →
    ∃ later, (Tree.ofEntry kept).scopeAt? path = some later ∧ later.kind = scope.kind ∧
      later.name = scope.name ∧ scope.table.names <+: later.table.names

theorem Tree.Grown.scopeAt {before after : Tree} (grown : before.Grown after)
    (path : List String) (scope : Scope) (there : before.scopeAt? path = some scope) :
    ∃ later, after.scopeAt? path = some later ∧ later.kind = scope.kind ∧
      later.name = scope.name ∧ scope.table.Grown later.table := by
  obtain ⟨part, found, owned⟩ := (before.scopeAt_some path scope).mp there
  obtain ⟨later, here, inner⟩ := grown.find path found
  obtain ⟨scope', owns, same⟩ := inner scope owned
  exact ⟨scope', (after.scopeAt_some path scope').mpr ⟨later, here, owns⟩, same⟩

theorem Entry.Grown.preserved {entry kept : Entry} (grown : entry.Grown kept)
    (sound : entry.WellFormed) : entry.Preserved kept := by
  have nested : ∀ path scope, (Tree.ofEntry entry).scopeAt? path = some scope →
      ∃ later, (Tree.ofEntry kept).scopeAt? path = some later ∧ later.kind = scope.kind ∧
        later.name = scope.name ∧ scope.table.names <+: later.table.names := by
    intro path scope there
    obtain ⟨later, here, kind, name, more⟩ := grown.tree.scopeAt path scope there
    exact ⟨later, here, kind, name, more.1⟩
  cases grown with
  | leaf => exact ⟨rfl, rfl, rfl, nofun, nofun, nested⟩
  | @scope header before after names values =>
      refine ⟨rfl, rfl, rfl, ?_, ?_, nested⟩
      · intro method found
        cases header with
        | block label => cases found
        | «class» name super? => cases found
        | method name returns paramCount =>
            cases found
            have same := Table.Grown.parameters ⟨names, values⟩ name returns paramCount
              ((Entry.wellFormed_scope _ _).mp sound)
            exact ⟨_, rfl, rfl, by simp only [Method.signature, same]⟩
      · intro self found
        cases header with
        | block label => cases found
        | method name returns paramCount => cases found
        | «class» name super? =>
            cases found
            exact ⟨_, rfl, rfl⟩

theorem Tree.WellFormed.scopeAt {tree : Tree} (sound : tree.WellFormed) (path : List String)
    (scope : Scope) (there : tree.scopeAt? path = some scope) : scope.WellFormed := by
  obtain ⟨part, found, owned⟩ := (tree.scopeAt_some path scope).mp there
  exact part.wellFormed_scope scope owned (sound.find path found)

/-- Bindings are permanent: whatever is done to a tree, each binding of each of
its scopes keeps its position and its name, and what is bound there gains
bindings at most. -/
theorem bindings_permanent (tree : Tree) (obtained : Obtainable tree)
    (operations : List Operation) (path : List String) (scope : Scope)
    (there : tree.scopeAt? path = some scope) (position : Nat) (name : String) (entry : Entry)
    (bound : scope.table.bindings[position]? = some (name, entry)) :
    ∃ later kept, (tree.run operations).scopeAt? path = some later ∧
      later.kind = scope.kind ∧ later.name = scope.name ∧
      later.table.bindings[position]? = some (name, kept) ∧ entry.Preserved kept := by
  obtain ⟨later, here, kind, owner, grown⟩ := (tree.run_grown operations).scopeAt path scope there
  obtain ⟨kept, still, inner⟩ := grown.position position name entry bound
  have sound := (obtained.wellFormed.scopeAt path scope there).2 (name, entry)
    (List.mem_of_getElem? bound)
  exact ⟨later, kept, here, kind, owner, still, inner.preserved sound⟩

/-- A method bound in a class keeps its signature while its body is filled, its
own name is offered again and the class is given a superclass. -/
theorem bindings_permanent_method :
    let scale : Entry := .scope (.method "scale" .void 0) .empty
    let tree := Tree.run (.ofEntry (.scope (.class "Point" none) .empty)) [.at [] (.bind "m" scale)]
    let operations : List Operation :=
      [.at ["m"] (.bind "x" (.leaf ⟨"x", .int⟩)), .at [] (.bind "m" (.leaf ⟨"m", .int⟩)),
        .bindParameter ⟨"by", .float⟩, .extend ⟨7⟩, .at ["m"] .render]
    (∃ scope, tree.scopeAt? [] = some scope ∧ scope.table.bindings[0]? = some ("m", scale)) ∧
      ∃ later kept, (tree.run operations).scopeAt? [] = some later ∧
        later.table.bindings[0]? = some ("m", kept) ∧ scale.Preserved kept := by
  intro scale tree operations
  have scaleMade : Obtainable (.ofEntry scale) :=
    @Obtainable.method "scale" .void ⟨"scale", .void, 0, .empty⟩ rfl
  have obtained : Obtainable tree :=
    (@Obtainable.class "Point" ⟨"Point", none, .empty⟩ rfl).run _
      (by simp [Operation.brought?, Act.brought?, scaleMade])
  have there : tree.scopeAt? [] = some ⟨.nested (.class "Point" none), ⟨[("m", scale)], none⟩⟩ := rfl
  obtain ⟨later, kept, here, _, _, still, same⟩ :=
    bindings_permanent tree obtained operations [] _ there 0 "m" scale rfl
  exact ⟨⟨_, there, rfl⟩, later, kept, here, still, same⟩

end SymbolTable
