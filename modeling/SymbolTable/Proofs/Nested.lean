import SymbolTable.Proofs.FirstWins
import SymbolTable.Proofs.Path

/-!
Edits inside a tree. A path that can be read to a scope can be edited at that
scope and at no other: what is bound there is decided by that scope's own kind and
told in its own name, the scopes on the way change in nothing but what the next
name of the path is bound to, and everything beside the path reads as before.
-/
namespace SymbolTable

def Entry.shell : Entry → Entry
  | .leaf declared => .leaf declared
  | .scope header _ => .scope header .empty

def Act.binding? : Act → Option (String × Entry)
  | .bind name entry | .add name entry => some (name, entry)
  | .declare entry _ => some (entry.name, entry)
  | _ => none

def Act.told (act : Act) (refusal? : Option Refusal) : Answer :=
  match act with
  | .add _ _ => .truth refusal?.isNone
  | .declare _ span => .declared refusal?.isNone ⟨(refusal?.map (Refusal.diagnostic span)).toList⟩
  | _ => .bound refusal?

theorem Act.on_made (act : Act) (scope bound : Scope) (name : String) (entry : Entry)
    (binding : act.binding? = some (name, entry)) (made : scope.bind name entry = .ok bound) :
    act.on scope = (act.told none, bound.table) := by
  cases act with
  | bind other given | add other given =>
      cases binding
      simp only [on, made]
      rfl
  | declare given span =>
      cases binding
      simp only [on, Scope.declare, made]
      rfl
  | reset | next | render | renderBindings | layout => cases binding

theorem Act.on_failed (act : Act) (scope : Scope) (name : String) (entry : Entry)
    (binding : act.binding? = some (name, entry)) (refusal : Refusal)
    (failed : scope.bind name entry = .error refusal) :
    act.on scope = (act.told (some refusal), scope.table) := by
  cases act with
  | bind other given | add other given =>
      cases binding
      simp only [on, failed]
      rfl
  | declare given span =>
      cases binding
      simp only [on, Scope.declare, failed]
      rfl
  | reset | next | render | renderBindings | layout => cases binding

namespace Scope

/-- Why a scope does not bind an entry, in its own words: those of the refusal and
those of the diagnostic for it. A class looks at the kind first. -/
inductive Refuses (scope : Scope) (name : String) (entry : Entry) :
    Refusal → String → (Span → Diagnostic) → Prop where
  | disallowed : scope.kind = .class → entry.kind = .block →
      Refuses scope name entry (.disallowedKind name .block scope.name)
        ("a block cannot be declared in class '" ++ scope.name ++ "'")
        fun span => .located span .kindNotAllowed ["block", scope.name]
  | unnamed : (scope.kind = .class → entry.kind ≠ .block) → name = "" →
      Refuses scope name entry (.emptyName scope.name scope.kind)
        ("a declaration in " ++ scope.kind.text ++ " '" ++ scope.name ++ "' has no name")
        fun span => .located span .unnamedDeclaration [scope.kind.text, scope.name]
  | duplicate : (scope.kind = .class → entry.kind ≠ .block) → name ≠ "" →
      name ∈ scope.table.names →
      Refuses scope name entry (.duplicateName name scope.name scope.kind)
        ("'" ++ name ++ "' is already declared in " ++ scope.kind.text ++ " '" ++ scope.name ++ "'")
        fun span => .located span .alreadyDeclared [name, scope.kind.text, scope.name]

inductive Binds (scope : Scope) (name : String) (entry : Entry) :
    Option Refusal → Scope → Prop where
  | taken : (scope.kind = .class → entry.kind ≠ .block) → name ≠ "" → name ∉ scope.table.names →
      Binds scope name entry none { scope with table := scope.table.push name entry }
  | refused {refusal} : scope.Refuses name entry refusal refusal.message refusal.diagnostic →
      Binds scope name entry (some refusal) scope

/-- The two scopes differ in nothing but the table of the scope that a path leads to:
each name on the path is bound in both, at the same place, to scopes with the same
header that differ so in turn. -/
inductive ChangedUnder : List String → Scope → Scope → Prop where
  | here {before after : Scope} : after.owner = before.owner → ChangedUnder [] before after
  | inside {name rest front behind header table inner} {before after : Scope} :
      after.owner = before.owner → after.table.cursor = before.table.cursor →
      before.table.bindings = front ++ (name, .scope header table) :: behind →
      after.table.bindings = front ++ (name, .scope header inner) :: behind →
      (∀ binding ∈ front, binding.1 ≠ name) →
      ChangedUnder rest ⟨.nested header, table⟩ ⟨.nested header, inner⟩ →
      ChangedUnder (name :: rest) before after

/-- What an edit below a scope leaves of it: its header, its cursor and, name by name,
the entries without what is inside them. -/
structure Keeps (before after : Scope) : Prop where
  owner : after.owner = before.owner
  cursor : after.table.cursor = before.table.cursor
  shells : (after.table.bindings.map fun binding => (binding.1, binding.2.shell)) =
    before.table.bindings.map fun binding => (binding.1, binding.2.shell)

theorem bind_binds (scope : Scope) (name : String) (entry : Entry) :
    (∃ bound, scope.bind name entry = .ok bound ∧ scope.Binds name entry none bound) ∨
      ∃ refusal, scope.bind name entry = .error refusal ∧
        scope.Binds name entry (some refusal) scope := by
  by_cases admitted : scope.kind = .class → entry.kind ≠ .block
  · have allowed := (scope.admits_iff entry).mpr admitted
    by_cases empty : name = ""
    · refine .inr ⟨.emptyName scope.name scope.kind, ?_, .refused (.unnamed admitted empty)⟩
      rw [bind, if_pos allowed, insert, if_pos empty]
    · by_cases member : name ∈ scope.table.names
      · have contained := (scope.table.contains_iff name).mpr member
        refine .inr ⟨.duplicateName name scope.name scope.kind, ?_,
          .refused (.duplicate admitted empty member)⟩
        rw [bind, if_pos allowed, insert, if_neg empty, if_pos contained]
      · have fresh := (scope.table.lookup_none_iff name).mpr member
        exact .inl ⟨_, scope.bind_free name entry allowed empty fresh, .taken admitted empty member⟩
  · have disallowed : scope.kind = .class ∧ entry.kind = .block := by simpa using admitted
    obtain ⟨owner, block⟩ := disallowed
    have excluded : ¬ scope.admits entry.kind :=
      fun allowed => admitted ((scope.admits_iff entry).mp allowed)
    refine .inr ⟨.disallowedKind name .block scope.name, ?_, .refused (.disallowed owner block)⟩
    rw [bind, if_neg excluded, block]

/-- The policy of one scope: an act that binds does so as the scope itself decides. -/
theorem on_binds (scope : Scope) (act : Act) (name : String) (entry : Entry)
    (binding : act.binding? = some (name, entry)) :
    ∃ refusal? later, act.on scope = (act.told refusal?, later.table) ∧
      later.owner = scope.owner ∧ scope.Binds name entry refusal? later := by
  rcases scope.bind_binds name entry with ⟨bound, made, binds⟩ | ⟨refusal, failed, binds⟩
  · have same : bound.owner = scope.owner := by
      cases binds
      rfl
    exact ⟨none, bound, act.on_made scope bound name entry binding made, same, binds⟩
  · exact ⟨some refusal, scope, act.on_failed scope name entry binding refusal failed, rfl, binds⟩

namespace ChangedUnder

theorem owner {path : List String} {before after : Scope}
    (changed : ChangedUnder path before after) : after.owner = before.owner := by
  cases changed with
  | here same => exact same
  | inside same => exact same

theorem keeps {name : String} {rest : List String} {before after : Scope}
    (changed : ChangedUnder (name :: rest) before after) : before.Keeps after := by
  cases changed with
  | inside same cursor split replaced _ _ =>
      refine ⟨same, cursor, ?_⟩
      rw [split, replaced]
      simp [Entry.shell]

/-- The first name of the path leads to two scopes that differ along the rest. -/
theorem lookup {name : String} {rest : List String} {before after : Scope}
    (changed : ChangedUnder (name :: rest) before after) :
    ∃ header table inner, before.lookup? name = some (.scope header table) ∧
      after.lookup? name = some (.scope header inner) ∧
      ChangedUnder rest ⟨.nested header, table⟩ ⟨.nested header, inner⟩ := by
  cases changed with
  | @inside _ _ front behind header table inner _ _ _ _ split replaced absent deeper =>
      have differs : ∀ binding ∈ front, (name != binding.1) = true := by
        intro binding member
        exact bne_iff_ne.mpr (absent binding member).symm
      exact ⟨header, table, inner,
        List.lookup_eq_some_iff.mpr ⟨front, behind, split, by simpa using differs⟩,
        List.lookup_eq_some_iff.mpr ⟨front, behind, replaced, by simpa using differs⟩, deeper⟩

/-- Any other name is bound as before. -/
theorem lookup_other {name other : String} {rest : List String} {before after : Scope}
    (changed : ChangedUnder (name :: rest) before after) (differs : other ≠ name) :
    after.lookup? other = before.lookup? other := by
  cases changed with
  | inside _ _ split replaced _ _ =>
      have apart : (other == name) = false := beq_eq_false_iff_ne.mpr differs
      rw [Scope.lookup?, Scope.lookup?, Table.lookup?, Table.lookup?, split, replaced,
        List.lookup_append, List.lookup_append, List.lookup_cons, List.lookup_cons, apart]

/-- On the way to the end of the path both lead to scopes that differ along what is
left of it. -/
theorem at_front {front rest : List String} {before after : Scope}
    (changed : ChangedUnder (front ++ rest) before after) :
    ∃ earlier later, before.at? front = some earlier ∧ after.at? front = some later ∧
      ChangedUnder rest earlier later := by
  induction front generalizing before after with
  | nil => exact ⟨before, after, rfl, rfl, changed⟩
  | cons name front ih =>
      obtain ⟨header, table, inner, found, replaced, deeper⟩ := changed.lookup
      rw [at_cons before name front header table found,
        at_cons after name front header inner replaced]
      exact ih deeper

end ChangedUnder

theorem find_below (scope other : Scope) (name : String) (rest : List String)
    (same : other.lookup? name = scope.lookup? name) :
    other.tree.find (name :: rest) = scope.tree.find (name :: rest) := by
  simp only [Tree.find, tree_scope, same]

theorem find_inside (scope : Scope) (name : String) (rest : List String) (header : Header)
    (table : Table Entry) (found : scope.lookup? name = some (.scope header table)) :
    scope.tree.find (name :: rest) = (Scope.tree ⟨.nested header, table⟩).find rest := by
  simp only [Tree.find, tree_scope, found]
  rfl

/-- Beside the path everything reads as before. -/
theorem ChangedUnder.find_beside {path other : List String} {before after : Scope}
    (changed : ChangedUnder path before after) (apart : ¬ path <+: other)
    (beside : ¬ other <+: path) : after.tree.find other = before.tree.find other := by
  induction path generalizing before after other with
  | nil => exact absurd List.nil_prefix apart
  | cons name path ih =>
      cases other with
      | nil => exact absurd List.nil_prefix beside
      | cons next rest =>
          by_cases onward : next = name
          · subst onward
            obtain ⟨header, table, inner, found, replaced, deeper⟩ := changed.lookup
            have apart' : ¬ path <+: rest := by
              intro front
              exact apart (List.cons_prefix_cons.mpr ⟨rfl, front⟩)
            have beside' : ¬ rest <+: path := by
              intro front
              exact beside (List.cons_prefix_cons.mpr ⟨rfl, front⟩)
            rw [find_inside before next rest header table found,
              find_inside after next rest header inner replaced]
            exact ih deeper apart' beside'
          · exact find_below before after next rest (changed.lookup_other onward)

/-- An edit changes a scope along its path alone. -/
theorem edit_changedUnder {Reply : Type} (change : Scope → Reply × Table Entry)
    (scope after : Scope) (path : List String) (reply : Reply)
    (edited : scope.edit change path = some (reply, after)) : ChangedUnder path scope after := by
  induction path generalizing scope after with
  | nil =>
      cases edited
      exact .here rfl
  | cons name path ih =>
      obtain ⟨header, table, inner, found, deeper, same⟩ :=
        edit_cons change scope after name path reply edited
      have below := ih ⟨.nested header, table⟩ inner deeper
      have owner : inner.owner = .nested header := below.owner
      have whole : inner = ⟨.nested header, inner.table⟩ := by rw [← owner]
      obtain ⟨front, behind, split, absent⟩ := scope.table.lookup_splits name _ found
      subst same
      refine .inside rfl rfl split ?_ absent (whole ▸ below)
      simp only [Table.replace, split]
      exact Table.replaceIn_split name _ _ front behind absent

end Scope

namespace Tree

structure Confined (before after : Tree) (path : List String) : Prop where
  ancestors : ∀ front rest, path = front ++ rest → rest ≠ [] →
    ∃ earlier later, before.scopeAt? front = some earlier ∧ after.scopeAt? front = some later ∧
      earlier.Keeps later
  others : ∀ other, ¬ path <+: other →
    after.find other = before.find other ∨
      ∃ rest earlier later, path = other ++ rest ∧ before.find other = .ok (Scope.tree earlier) ∧
        after.find other = .ok (Scope.tree later) ∧ Scope.ChangedUnder rest earlier later

theorem find_scope (scope reached : Scope) (path : List String)
    (there : scope.at? path = some reached) : scope.tree.find path = .ok reached.tree := by
  rw [← scopeAt_scope] at there
  obtain ⟨part, found, owned⟩ := (scope.tree.scopeAt_some path reached).mp there
  rw [found, part.scope_tree reached owned]

theorem perform_confined (tree : Tree) (path : List String) (act : Act) (target : Scope)
    (there : tree.scopeAt? path = some target) :
    tree.Confined (tree.perform (.at path act)).2 path := by
  obtain ⟨scope, after, same, _, edited, performed⟩ := tree.perform_at path act target there
  have changed := scope.edit_changedUnder act.on after path _ edited
  rw [performed, same]
  constructor
  case ancestors =>
    intro front rest split proper
    subst split
    obtain ⟨earlier, later, before, behind, onward⟩ := changed.at_front
    rw [scopeAt_scope, scopeAt_scope]
    refine ⟨earlier, later, before, behind, ?_⟩
    cases rest with
    | nil => exact absurd rfl proper
    | cons name rest => exact onward.keeps
  case others =>
    intro other apart
    by_cases above : other <+: path
    · obtain ⟨rest, split⟩ := above
      subst split
      obtain ⟨earlier, later, before, behind, onward⟩ := changed.at_front
      exact .inr ⟨rest, earlier, later, rfl, find_scope scope earlier other before,
        find_scope after later other behind, onward⟩
    · exact .inl (changed.find_beside apart above)

/-- Following a path for an edit leads where following it to read does, and changes
nothing by itself. -/
theorem edit_reaches (tree after : Tree) (path : List String) (reached : Scope) :
    tree.edit (fun scope => (scope, scope.table)) path = .ok (reached, after) ↔
      tree.scopeAt? path = some reached ∧ after = tree := by
  rw [scopeAt_at, edit]
  cases owned : tree.scope? with
  | none => simp
  | some scope =>
      have whole : scope.tree = tree := tree.scope_tree scope owned
      rw [Option.bind_some]
      cases there : scope.at? path with
      | none =>
          simp [scope.edit_none _ path there]
      | some target =>
          obtain ⟨changed, edited, _⟩ :=
            scope.edit_at (fun scope => (scope, scope.table)) target path there
          have kept := scope.edit_same _ changed target path _ edited there rfl
          simp [edited, kept, whole, eq_comm]

end Tree

/-- Edits in a tree hit their target and nothing else. A path can be followed to edit
exactly if it can be followed to read, to the same scope. An act on that scope that
binds is decided by the policy of that scope and told in its name; whatever the act is,
the scopes on the way keep all they hold but what the path leads to, and what is read
under any other path is what it was. -/
theorem nested_edits_exact (tree : Tree) (path : List String) :
    (∀ reached after, tree.edit (fun scope => (scope, scope.table)) path = .ok (reached, after) ↔
        tree.scopeAt? path = some reached ∧ after = tree) ∧
      ∀ act target, tree.scopeAt? path = some target →
        tree.Confined (tree.perform (.at path act)).2 path ∧
        ∀ name entry, act.binding? = some (name, entry) →
          ∃ refusal? later, (tree.perform (.at path act)).1 = act.told refusal? ∧
            (tree.perform (.at path act)).2.scopeAt? path = some later ∧
            target.Binds name entry refusal? later := by
  refine ⟨fun reached after => tree.edit_reaches after path reached, ?_⟩
  intro act target there
  refine ⟨tree.perform_confined path act target there, ?_⟩
  intro name entry binding
  obtain ⟨refusal?, later, done, owner, binds⟩ := target.on_binds act name entry binding
  have reads := tree.perform_below path [] act target there
  rw [List.append_nil, done, ← owner] at reads
  obtain ⟨_, _, _, _, _, performed⟩ := tree.perform_at path act target there
  exact ⟨refusal?, later, by rw [performed, done], reads, binds⟩

/-- A variable is bound in a block of a method of a class, three names down, and a
block is refused by the class on the way there. -/
theorem nested_edits_exact_deep :
    let x : Entry := .leaf ⟨"x", .int⟩
    let empty : Entry := .scope (.block "block#0") .empty
    let tree (body : Table Entry) : Tree :=
      let move : Entry := .scope (.method "move" .void 0)
        ⟨[("b", .scope (.block "block#0") body)], some 1⟩
      .program "main" ⟨[("g", x), ("P", .scope (.class "Point" none) ⟨[("m", move)], none⟩)], some 2⟩
    let target : Scope := ⟨.nested (.block "block#0"), .empty⟩
    let path := ["P", "m", "b"]
    let after := (Tree.perform (tree .empty) (.at path (.bind "x" x))).2
    (tree .empty).scopeAt? path = some target ∧ (tree .empty).Confined after path ∧
      (∃ refusal? later, after.scopeAt? path = some later ∧ target.Binds "x" x refusal? later) ∧
      after = tree ⟨[("x", x)], none⟩ ∧
      (Tree.perform (tree .empty) (.at ["P"] (.bind "x" empty))).1 =
        .bound (some (.disallowedKind "x" .block "Point")) := by
  intro x empty tree target path after
  have there : (tree .empty).scopeAt? path = some target := rfl
  obtain ⟨confined, bound⟩ := (nested_edits_exact (tree .empty) path).2 (.bind "x" x) target there
  obtain ⟨refusal?, later, _, reads, binds⟩ := bound "x" x rfl
  exact ⟨there, confined, ⟨refusal?, later, reads, binds⟩, rfl, rfl⟩

end SymbolTable
