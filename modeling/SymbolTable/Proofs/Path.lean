import SymbolTable.Proofs.Permanence

/-!
Scopes along paths. `Scope.at?` reads the scope that a path leads to, and an
edit changes what is read there, below it and nowhere else: a scope that the
path only passes keeps the names it binds and its cursor, and a scope that
the path does not lead to is not touched.
-/
namespace SymbolTable

def Scope.at? (scope : Scope) : List String → Option Scope
  | [] => some scope
  | name :: rest => ((scope.lookup? name).bind Entry.scope?).bind fun inner => at? inner rest

def Scope.cursorAt? (scope : Scope) (path : List String) : Option (Option Nat) :=
  (scope.at? path).map fun inner => inner.table.cursor

def Tree.cursorAt? (tree : Tree) (path : List String) : Option (Option Nat) :=
  (tree.scopeAt? path).map fun inner => inner.table.cursor

namespace Scope

theorem at_cons (scope : Scope) (name : String) (rest : List String) (header : Header)
    (table : Table Entry) (found : scope.lookup? name = some (.scope header table)) :
    scope.at? (name :: rest) = Scope.at? ⟨.nested header, table⟩ rest := by
  rw [at?, found]
  rfl

theorem at_append (scope : Scope) (front rest : List String) :
    scope.at? (front ++ rest) = (scope.at? front).bind fun inner => inner.at? rest := by
  induction front generalizing scope with
  | nil => rfl
  | cons name front ih =>
      rw [List.cons_append, at?, at?]
      cases (scope.lookup? name).bind Entry.scope? with
      | none => rfl
      | some inner => exact ih inner

/-- Below a scope only its bindings matter. -/
theorem at_below (scope other : Scope) (name : String) (rest : List String)
    (same : other.lookup? name = scope.lookup? name) :
    other.at? (name :: rest) = scope.at? (name :: rest) := by
  rw [at?, at?, same]

/-- A further binding hides no scope below. -/
theorem at_push (scope inner : Scope) (owner : Owner) (name step : String) (entry : Entry)
    (rest : List String) (there : scope.at? (step :: rest) = some inner) :
    Scope.at? ⟨owner, scope.table.push name entry⟩ (step :: rest) = scope.at? (step :: rest) := by
  obtain ⟨_, entered, _⟩ := Option.bind_eq_some_iff.mp there
  obtain ⟨found, bound, _⟩ := Option.bind_eq_some_iff.mp entered
  have kept : lookup? ⟨owner, scope.table.push name entry⟩ step = scope.lookup? step :=
    (scope.table.lookup_push name step entry found bound).trans bound.symm
  exact at_below scope _ step rest kept

theorem edit_at {Reply : Type} (change : Scope → Reply × Table Entry) (scope target : Scope)
    (path : List String) (there : scope.at? path = some target) :
    ∃ after, scope.edit change path = some ((change target).1, after) ∧
      ∀ rest, after.at? (path ++ rest) = Scope.at? ⟨target.owner, (change target).2⟩ rest := by
  induction path generalizing scope with
  | nil =>
      cases there
      exact ⟨_, rfl, fun rest => rfl⟩
  | cons name path ih =>
      obtain ⟨inner, entered, onward⟩ := Option.bind_eq_some_iff.mp there
      obtain ⟨entry, found, owned⟩ := Option.bind_eq_some_iff.mp entered
      cases entry with
      | leaf declared => cases owned
      | scope header table =>
          cases owned
          obtain ⟨after, edited, reads⟩ := ih ⟨.nested header, table⟩ onward
          have owner : after.owner = .nested header :=
            edit_owner change ⟨.nested header, table⟩ after path _ edited
          let filled : Scope :=
            { scope with table := scope.table.replace name (.scope header after.table) }
          have replaced : filled.lookup? name = some (.scope header after.table) :=
            scope.table.lookup_replace name (.scope header table) _ found
          refine ⟨filled, ?_, ?_⟩
          · simp only [edit, found, edited, filled]
          · intro rest
            rw [List.cons_append, at_cons filled name (path ++ rest) header after.table replaced,
              ← owner]
            exact reads rest

theorem edit_none {Reply : Type} (change : Scope → Reply × Table Entry) (scope : Scope)
    (path : List String) (absent : scope.at? path = none) : scope.edit change path = none := by
  induction path generalizing scope with
  | nil => cases absent
  | cons name path ih =>
      rw [edit]
      split
      · rename_i header table found
        rw [at_cons scope name path header table found] at absent
        rw [ih _ absent]
      · rfl

/-- Cursors stay where they are in all scopes but those at and below the end of
the path. -/
theorem edit_elsewhere {Reply : Type} (change : Scope → Reply × Table Entry) (scope after : Scope)
    (path other : List String) (reply : Reply)
    (edited : scope.edit change path = some (reply, after)) (apart : ¬ path <+: other) :
    after.cursorAt? other = scope.cursorAt? other := by
  induction path generalizing scope after other with
  | nil => exact absurd (List.nil_prefix) apart
  | cons name path ih =>
      obtain ⟨header, table, inner, found, inside, same⟩ :=
        edit_cons change scope after name path reply edited
      subst same
      cases other with
      | nil => rfl
      | cons next rest =>
          by_cases onward : next = name
          · subst onward
            have deeper : ¬ path <+: rest := by
              intro front
              exact apart (List.cons_prefix_cons.mpr ⟨rfl, front⟩)
            have owner : inner.owner = .nested header := edit_owner change _ inner path reply inside
            have whole : (⟨.nested header, inner.table⟩ : Scope) = inner := by rw [← owner]
            have replaced : Scope.lookup?
                ⟨scope.owner, scope.table.replace next (.scope header inner.table)⟩ next =
                  some (.scope header inner.table) :=
              scope.table.lookup_replace next (.scope header table) _ found
            rw [cursorAt?, cursorAt?, at_cons _ next rest header inner.table replaced,
              at_cons scope next rest header table found, whole]
            exact ih _ inner rest inside deeper
          · have kept : Scope.lookup?
                ⟨scope.owner, scope.table.replace name (.scope header inner.table)⟩ next =
                  scope.lookup? next :=
              scope.table.lookup_replace_other name next _ onward
            rw [cursorAt?, cursorAt?, at_below scope _ next rest kept]

/-- A change that gives back the table it was given changes nothing. -/
theorem edit_same {Reply : Type} (change : Scope → Reply × Table Entry) (scope after target : Scope)
    (path : List String) (reply : Reply) (edited : scope.edit change path = some (reply, after))
    (there : scope.at? path = some target) (same : (change target).2 = target.table) :
    after = scope := by
  induction path generalizing scope after with
  | nil =>
      cases there
      cases edited
      rw [same]
  | cons name path ih =>
      obtain ⟨header, table, inner, found, inside, built⟩ :=
        edit_cons change scope after name path reply edited
      rw [at_cons scope name path header table found] at there
      have kept := ih _ inner inside there
      subst built
      subst kept
      rw [scope.table.replace_same name _ found]

end Scope

namespace Tree

theorem scope_tree (tree : Tree) (scope : Scope) (owned : tree.scope? = some scope) :
    scope.tree = tree := by
  cases tree with
  | program name table =>
      cases owned
      rfl
  | ofEntry entry =>
      cases entry with
      | leaf declared => cases owned
      | scope header table =>
          cases owned
          rfl

theorem scopeAt_at (tree : Tree) (path : List String) :
    tree.scopeAt? path = tree.scope?.bind fun scope => scope.at? path := by
  induction path generalizing tree with
  | nil =>
      rw [scopeAt?, find]
      cases owned : tree.scope? with
      | none => exact owned
      | some scope => exact owned
  | cons name rest ih =>
      rw [scopeAt?, find]
      cases tree.scope? with
      | none => rfl
      | some scope =>
          simp only [Option.bind_some, Scope.at?]
          cases scope.lookup? name with
          | none => rfl
          | some entry => exact ih (.ofEntry entry)

theorem scopeAt_scope (scope : Scope) (path : List String) :
    scope.tree.scopeAt? path = scope.at? path := by
  rw [scopeAt_at, scope.tree_scope, Option.bind_some]

theorem scopeAt_append (tree : Tree) (base rest : List String) (scope : Scope)
    (there : tree.scopeAt? base = some scope) :
    tree.scopeAt? (base ++ rest) = scope.at? rest := by
  rw [scopeAt_at] at there ⊢
  obtain ⟨root, owned, reached⟩ := Option.bind_eq_some_iff.mp there
  rw [owned, Option.bind_some, root.at_append, reached, Option.bind_some]

theorem cursorAt_scope (scope : Scope) (path : List String) :
    scope.tree.cursorAt? path = scope.cursorAt? path := by
  rw [cursorAt?, scopeAt_scope, Scope.cursorAt?]

/-- An act on a scope that is there answers as that scope does and leaves a tree
in which the scope has the table that the act leaves. -/
theorem perform_at (tree : Tree) (path : List String) (act : Act) (target : Scope)
    (there : tree.scopeAt? path = some target) :
    ∃ (scope after : Scope), tree = scope.tree ∧ scope.at? path = some target ∧
      scope.edit act.on path = some ((act.on target).1, after) ∧
      tree.perform (.at path act) = ((act.on target).1, after.tree) := by
  rw [scopeAt_at] at there
  obtain ⟨scope, owned, reached⟩ := Option.bind_eq_some_iff.mp there
  obtain ⟨after, edited, _⟩ := scope.edit_at act.on target path reached
  refine ⟨scope, after, (tree.scope_tree scope owned).symm, reached, edited, ?_⟩
  simp only [perform, edit, owned, edited]

theorem perform_nowhere (tree : Tree) (path : List String) (act : Act)
    (absent : tree.scopeAt? path = none) : (tree.perform (.at path act)).2 = tree := by
  rw [scopeAt_at] at absent
  rw [perform, edit]
  cases owned : tree.scope? with
  | none => rfl
  | some scope =>
      rw [owned, Option.bind_some] at absent
      simp only [scope.edit_none act.on path absent]

/-- What is read behind the place of an act. -/
theorem perform_below (tree : Tree) (path rest : List String) (act : Act) (target : Scope)
    (there : tree.scopeAt? path = some target) :
    (tree.perform (.at path act)).2.scopeAt? (path ++ rest) =
      Scope.at? ⟨target.owner, (act.on target).2⟩ rest := by
  obtain ⟨scope, after, _, reached, edited, performed⟩ := tree.perform_at path act target there
  obtain ⟨after', edited', reads⟩ := scope.edit_at act.on target path reached
  rw [edited] at edited'
  cases edited'
  rw [performed, scopeAt_scope]
  exact reads rest

theorem perform_elsewhere (tree : Tree) (path other : List String) (act : Act)
    (apart : ¬ path <+: other) :
    (tree.perform (.at path act)).2.cursorAt? other = tree.cursorAt? other := by
  cases there : tree.scopeAt? path with
  | none => rw [tree.perform_nowhere path act there]
  | some target =>
      obtain ⟨scope, after, same, _, edited, performed⟩ := tree.perform_at path act target there
      rw [performed, same, cursorAt_scope, cursorAt_scope]
      exact scope.edit_elsewhere act.on after path other _ edited apart

theorem perform_same (tree : Tree) (path : List String) (act : Act) (target : Scope)
    (there : tree.scopeAt? path = some target) (same : (act.on target).2 = target.table) :
    (tree.perform (.at path act)).2 = tree := by
  obtain ⟨scope, after, built, reached, edited, performed⟩ := tree.perform_at path act target there
  rw [performed, built, scope.edit_same act.on after target path _ edited reached same]

end Tree
end SymbolTable
