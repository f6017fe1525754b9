import SymbolTable.Proofs.Session.Call

/-!
What a call leaves of the scopes of a session. The scope that takes an entry binds it
behind all others; every other scope of the session binds what it did. What is inside
of a bound entry is the matter of the scopes in it.
-/
namespace SymbolTable

namespace Scope

def listing (scope : Scope) : List (String × Entry) :=
  scope.table.bindings.map fun binding => (binding.1, binding.2.shell)

/-- A later state of a scope, with further bindings behind those that were there. -/
structure Longer (scope later : Scope) (more : List (String × Entry)) : Prop where
  name : later.name = scope.name
  kind : later.kind = scope.kind
  listing : later.listing = scope.listing ++ more

theorem Longer.refl (scope : Scope) : scope.Longer scope [] :=
  ⟨rfl, rfl, (List.append_nil _).symm⟩

theorem Longer.trans {first middle last : Scope} {more further : List (String × Entry)}
    (before : first.Longer middle more) (behind : middle.Longer last further) :
    first.Longer last (more ++ further) := by
  refine ⟨behind.name.trans before.name, behind.kind.trans before.kind, ?_⟩
  rw [behind.listing, before.listing, List.append_assoc]

theorem Keeps.longer {before after : Scope} (keeps : before.Keeps after) :
    before.Longer after [] := by
  refine ⟨?_, ?_, ?_⟩
  · rw [name, keeps.owner, name]
  · rw [kind, keeps.owner, kind]
  · rw [listing, keeps.shells, List.append_nil, listing]

theorem Longer.names {scope later : Scope} {more : List (String × Entry)}
    (longer : scope.Longer later more) :
    later.table.names = scope.table.names ++ more.map Prod.fst := by
  have first (scope : Scope) : scope.listing.map Prod.fst = scope.table.names := by
    simp [Scope.listing, Table.names]
  rw [← first later, longer.listing, List.map_append, first scope]

end Scope

def Call.OpensBody (call : Call) (slot : String) : Prop :=
  ∃ declared span, call = .entry ⟨slot, []⟩ declared span

def Call.binding (call : Call) : String × Entry :=
  (call.declared.name, call.declared.shell)

namespace Tree

theorem taken_entry (tree : Tree) (place : Place) (declared : Entry) (span : Span)
    (bound : Scope) (taken : tree.verdict? (.entry place declared span) = some (.ok bound)) :
    ∃ target, tree.scopeAt? place.path = some target ∧
      bound = { target with table := target.table.push declared.name declared } ∧
      ∀ rest, (tree.perform (.at place.path (.declare declared span))).2.scopeAt?
        (place.path ++ rest) = bound.at? rest := by
  obtain ⟨target, there, made⟩ := Option.map_eq_some_iff.mp taken
  obtain ⟨_, _, _, same⟩ := target.bind_ok bound declared.name declared made
  have left : ((Act.declare declared span).on target).2 = bound.table := by
    simp only [Act.on, Scope.declare, made]
  refine ⟨target, there, same, fun rest => ?_⟩
  rw [tree.perform_below place.path rest (.declare declared span) target there, left, same]

/-- Only a method without a body takes a parameter. -/
theorem taken_parameter (tree : Tree) (slot : String) (declared : Variable) (span : Span)
    (bound : Scope) (taken : tree.verdict? (.parameter slot declared span) = some (.ok bound)) :
    ∃ method : Method, tree = method.scope.tree ∧ method.table.size ≤ method.paramCount ∧
      bound = ⟨.nested (.method method.name method.returns (method.paramCount + 1)),
        method.table.push declared.name (.leaf declared)⟩ ∧
      (tree.perform (.declareParameter declared span)).2 = bound.tree := by
  obtain ⟨method, owned, made⟩ := Option.map_eq_some_iff.mp taken
  cases answer : method.addParameter declared with
  | error refusal =>
      rw [answer] at made
      cases made
  | ok longer =>
      rw [answer] at made
      cases made
      obtain ⟨bodiless, _, _, same⟩ := method.addParameter_ok longer declared answer
      refine ⟨method, tree.method_some method owned, bodiless, by rw [same]; rfl, ?_⟩
      simp only [perform, owned, Method.declareParameter, answer]
      rfl

/-- The scope that takes a call. -/
theorem taken_there (tree : Tree) (call : Call) (bound : Scope)
    (taken : tree.verdict? call = some (.ok bound)) :
    ∃ target, tree.scopeAt? call.place.path = some target ∧
      (tree.perform call.operation).2.scopeAt? call.place.path = some bound ∧
      bound.table = target.table.push call.declared.name call.declared ∧
      target.Longer bound [call.binding] := by
  have added (scope : Scope) : (scope.table.push call.declared.name call.declared).bindings.map
      (fun binding => (binding.1, binding.2.shell)) = scope.listing ++ [call.binding] := by
    simp [Scope.listing, Table.push, Call.binding]
  cases call with
  | entry place declared span =>
      obtain ⟨target, there, same, reads⟩ := tree.taken_entry place declared span bound taken
      have here := reads []
      rw [List.append_nil] at here
      subst same
      exact ⟨target, there, here, rfl, rfl, rfl, added target⟩
  | parameter slot declared span =>
      obtain ⟨method, whole, _, same, after⟩ := tree.taken_parameter slot declared span bound taken
      subst whole
      subst same
      refine ⟨method.scope, method.scope.tree_scope, ?_, rfl, rfl, rfl, added method.scope⟩
      rw [Call.operation, after]
      rfl

/-- The other scopes of the tree. -/
theorem taken_elsewhere (tree : Tree) (call : Call) (bound : Scope)
    (taken : tree.verdict? call = some (.ok bound)) (path : List String) (scope : Scope)
    (there : tree.scopeAt? path = some scope) (apart : call.place.path ≠ path) :
    ∃ later, (tree.perform call.operation).2.scopeAt? path = some later ∧
      later.owner = scope.owner ∧ scope.Longer later [] := by
  cases call with
  | entry place declared span =>
      obtain ⟨target, outer, same, reads⟩ := tree.taken_entry place declared span bound taken
      have confined := tree.perform_confined place.path (.declare declared span) target outer
      by_cases below : place.path <+: path
      · obtain ⟨rest, split⟩ := below
        subst split
        cases rest with
        | nil => exact absurd (List.append_nil _).symm apart
        | cons step rest =>
            rw [tree.scopeAt_append place.path _ target outer] at there
            have deeper := reads (step :: rest)
            rw [same, target.at_push scope _ _ step _ rest there, there] at deeper
            exact ⟨scope, deeper, rfl, .refl scope⟩
      · by_cases above : path <+: place.path
        · obtain ⟨rest, split⟩ := above
          have proper : rest ≠ [] := by
            rintro rfl
            exact apart (split ▸ List.append_nil path)
          obtain ⟨earlier, later, before, behind, keeps⟩ :=
            confined.ancestors path rest split.symm proper
          rw [there] at before
          cases before
          exact ⟨later, behind, keeps.owner, keeps.longer⟩
        · rcases confined.others path below with kept | ⟨rest, _, _, split, _⟩
          · refine ⟨scope, ?_, rfl, .refl scope⟩
            rw [← there, scopeAt?, scopeAt?, Call.operation, kept]
          · exact absurd ⟨rest, split.symm⟩ above
  | parameter slot declared span =>
      obtain ⟨method, whole, _, same, after⟩ := tree.taken_parameter slot declared span bound taken
      subst whole
      rw [scopeAt_scope] at there
      refine ⟨scope, ?_, rfl, .refl scope⟩
      rw [Call.operation, after, scopeAt_scope, same]
      cases path with
      | nil => exact absurd rfl apart
      | cons step rest =>
          exact (method.scope.at_push scope _ declared.name step (.leaf declared) rest there).trans
            there

end Tree

def Method.HoldsBody (method : Method) : Prop :=
  ∃ name ∈ method.table.names, name ∉ method.parameters.map Variable.name

theorem parameters_names (bindings : List (String × Entry))
    (leaves : ∀ binding ∈ bindings, ∃ declared : Variable,
      binding = (declared.name, .leaf declared)) :
    ((bindings.map Prod.snd).filterMap Entry.leaf?).map Variable.name =
      bindings.map Prod.fst := by
  induction bindings with
  | nil => rfl
  | cons binding rest ih =>
      rw [List.forall_mem_cons] at leaves
      obtain ⟨⟨declared, same⟩, behind⟩ := leaves
      subst same
      simpa [Entry.leaf?] using ih behind

/-- Distinct names tell what is behind the parameters from the parameters. -/
theorem Method.holdsBody_iff (method : Method) (sound : method.entry.WellFormed) :
    method.HoldsBody ↔ method.paramCount < method.table.size := by
  obtain ⟨proper, _⟩ := (Entry.wellFormed_scope _ _).mp sound
  obtain ⟨_, leaves⟩ := proper.parameters _ _ _ rfl
  have front : method.parameters.map Variable.name = method.table.names.take method.paramCount := by
    have named := parameters_names (method.table.bindings.take method.paramCount) leaves
    rwa [List.map_take, List.map_take] at named
  have distinct : method.table.names.Nodup := proper.distinct
  rw [HoldsBody, front, ← method.table.names_length]
  constructor
  · rintro ⟨name, bound, behind⟩
    apply Nat.lt_of_not_le
    intro few
    rw [List.take_of_length_le few] at behind
    exact behind bound
  · intro more
    have parted := List.take_append_drop method.paramCount method.table.names
    rw [← parted, List.nodup_append] at distinct
    have filled : 0 < (method.table.names.drop method.paramCount).length := by
      rw [List.length_drop]
      omega
    obtain ⟨name, last⟩ := List.exists_mem_of_length_pos filled
    exact ⟨name, List.mem_of_mem_drop last, fun inside => distinct.2.2 name inside name last rfl⟩

theorem Method.holdsBody_push (method later : Method) (sound : method.entry.WellFormed)
    (after : later.entry.WellFormed) (count : later.paramCount = method.paramCount)
    (size : later.table.size = method.table.size + 1) : later.HoldsBody := by
  have bounded := (((Entry.wellFormed_scope _ _).mp sound).1.parameters _ _ _ rfl).1
  rw [later.holdsBody_iff after, count, size]
  exact Nat.lt_succ_of_le bounded

theorem Tree.method_of_scope (tree : Tree) (method : Method)
    (there : tree.scopeAt? [] = some method.scope) : tree = .ofEntry method.entry := by
  rw [scopeAt_at] at there
  obtain ⟨scope, owned, same⟩ := Option.bind_eq_some_iff.mp there
  cases same
  exact (tree.scope_tree method.scope owned).symm

/-- What a call that is taken leaves of the method at the root of the tree. -/
theorem Tree.taken_method (method : Method) (call : Call) (bound : Scope) (left : Tree)
    (sound : method.entry.WellFormed) (after : left.WellFormed)
    (performed : (Tree.perform (.ofEntry method.entry) call.operation).2 = left)
    (taken : Tree.verdict? (.ofEntry method.entry) call = some (.ok bound)) :
    ∃ later : Method, left = .ofEntry later.entry ∧
      (later.HoldsBody ↔ method.HoldsBody ∨ call.OpensBody call.place.slot) := by
  have root : (Tree.ofEntry method.entry).scopeAt? [] = some method.scope := rfl
  cases call with
  | entry place declared span =>
      obtain ⟨slot, path⟩ := place
      cases path with
      | nil =>
          obtain ⟨target, there, same, _⟩ := Tree.taken_entry _ _ declared span bound taken
          obtain ⟨_, _, here, _⟩ := Tree.taken_there _ _ bound taken
          rw [root] at there
          cases there
          let later : Method := { method with table := method.table.push declared.name declared }
          rw [performed, same] at here
          have whole : left = .ofEntry later.entry := left.method_of_scope later here
          subst whole
          have size : later.table.size = method.table.size + 1 := by
            simp [later, Table.push, Table.size]
          have opened := method.holdsBody_push later sound after rfl size
          exact ⟨later, rfl, fun _ => .inr ⟨declared, span, rfl⟩, fun _ => opened⟩
      | cons step rest =>
          obtain ⟨scope, there, owner, longer⟩ := Tree.taken_elsewhere _ _ bound taken [] _ root
            (List.cons_ne_nil step rest)
          let later : Method := { method with table := scope.table }
          have same : scope = later.scope := by
            obtain ⟨_, table⟩ := scope
            cases owner
            rfl
          rw [performed, same] at there
          have whole : left = .ofEntry later.entry := left.method_of_scope later there
          subst whole
          have size : later.table.size = method.table.size := by
            have names := congrArg List.length longer.names
            rwa [List.map_nil, List.append_nil, Table.names_length, Table.names_length] at names
          refine ⟨later, rfl, ?_⟩
          rw [later.holdsBody_iff after, method.holdsBody_iff sound, size]
          constructor
          · exact .inl
          · rintro (body | ⟨_, _, atRoot⟩)
            · exact body
            · cases atRoot
  | parameter slot declared span =>
      obtain ⟨other, whole, bodiless, same, moved⟩ :=
        Tree.taken_parameter _ slot declared span bound taken
      have itself : method = other := by
        cases method
        cases other
        cases whole
        rfl
      subst itself
      let later : Method := ⟨method.name, method.returns, method.paramCount + 1,
        method.table.push declared.name (.leaf declared)⟩
      have whole : left = .ofEntry later.entry := by
        rw [← performed, Call.operation, moved, same]
        rfl
      subst whole
      have size : later.table.size = method.table.size + 1 := by
        simp [later, Table.push, Table.size]
      refine ⟨later, rfl, ?_⟩
      rw [later.holdsBody_iff after, method.holdsBody_iff sound, size]
      constructor
      · intro more
        exact .inl (Nat.lt_of_succ_lt_succ more)
      · rintro (body | ⟨_, _, other⟩)
        · exact absurd body (Nat.not_lt.mpr bodiless)
        · cases other

end SymbolTable
