import SymbolTable.Session.Run
import SymbolTable.Proofs.Nested

/-!
Declarations to a session. A call offers an entry to the scope at a place, or a
parameter to the method in a slot. In the tree of the slot it does what the operation
of that kind does; in the session it adds the diagnostic of a refusal to those that
are there. A call that leads to no scope or to no method changes nothing.
-/
namespace SymbolTable

inductive Call where
  | entry (place : Place) (declared : Entry) (span : Span)
  | parameter (slot : String) (declared : Variable) (span : Span)

namespace Call

def place : Call → Place
  | .entry place _ _ => place
  | .parameter slot _ _ => ⟨slot, []⟩

def declared : Call → Entry
  | .entry _ declared _ => declared
  | .parameter _ declared _ => .leaf declared

def span : Call → Span
  | .entry _ _ span | .parameter _ _ span => span

def operation : Call → Operation
  | .entry place declared span => .at place.path (.declare declared span)
  | .parameter _ declared span => .declareParameter declared span

def step : Call → Step Reply
  | .entry place declared span => Step.declare place declared span
  | .parameter slot declared span => Step.declareParameter slot declared span

end Call

/-- The scope that a call leaves if it is taken, or the refusal; none if there is
nothing that could take it. -/
def Tree.verdict? (tree : Tree) : Call → Option (Except Refusal Scope)
  | .entry place declared _ =>
      (tree.scopeAt? place.path).map fun scope => scope.bind declared.name declared
  | .parameter _ declared _ =>
      tree.method?.map fun method => (method.addParameter declared).map Method.scope

namespace Session

def verdict? (session : Session) (call : Call) : Option (Except Refusal Scope) :=
  (session.slots.lookup call.place.slot).bind fun tree => tree.verdict? call

theorem verdict_at (session : Session) (call : Call) (tree : Tree)
    (filled : session.slots.lookup call.place.slot = some tree) :
    session.verdict? call = tree.verdict? call := by
  rw [verdict?, filled, Option.bind_some]

def call (session : Session) (call : Call) : Except Problem Reply × Session :=
  call.step.run.run session

/-- All that a call can do to a session. -/
inductive Called (session : Session) (call : Call) : Except Problem Reply → Session → Prop where
  | astray {problem} : session.verdict? call = none → Called session call (.error problem) session
  | taken {tree bound} : session.slots.lookup call.place.slot = some tree →
      tree.verdict? call = some (.ok bound) →
      Called session call (.ok (.truth true)) { session with
        slots := session.slots.put call.place.slot (tree.perform call.operation).2 }
  | refused {tree refusal} : session.slots.lookup call.place.slot = some tree →
      tree.verdict? call = some (.error refusal) →
      Called session call (.ok (.truth false)) { session with
        slots := session.slots.put call.place.slot tree
        diagnostics := session.diagnostics.add (refusal.diagnostic call.span) }

end Session

namespace Step

theorem run_bind {First Second : Type} (first : Step First) (next : First → Step Second)
    (session : Session) :
    (first >>= next).run.run session =
      match first.run.run session with
      | (.ok value, later) => (next value).run.run later
      | (.error problem, later) => (.error problem, later) := by
  change (ExceptT.bindCont next (first.run.run session).1).run (first.run.run session).2 = _
  obtain ⟨result, later⟩ := first.run.run session
  cases result <;> rfl

theorem run_get (session : Session) :
    (get : Step Session).run.run session = (.ok session, session) := rfl

theorem run_ofExcept {Value : Type} (result : Except Problem Value) (session : Session) :
    (ofExcept result).run.run session = (result, session) := rfl

theorem run_edit {Reply : Type} (place : Place) (change : Scope → Reply × Table Entry)
    (session : Session) :
    (edit place change).run.run session =
      match session.slots.lookup place.slot with
      | none => (.error .noSlot, session)
      | some tree =>
          match tree.edit change place.path with
          | .error error => (.error error.problem, session)
          | .ok (reply, after) =>
              (.ok reply, { session with slots := session.slots.put place.slot after }) := by
  simp only [edit, run_bind, run_get, run_ofExcept, Slots.tree]
  cases session.slots.lookup place.slot with
  | none => rfl
  | some tree =>
      simp only
      cases tree.edit change place.path with
      | error error => rfl
      | ok result => rfl

theorem run_declare (place : Place) (declared : Entry) (span : Span) (session : Session) :
    (declare place declared span).run.run session =
      match session.slots.lookup place.slot with
      | none => (.error .noSlot, session)
      | some tree =>
          match tree.edit (fun scope =>
            let (made, scope, diagnostics) := scope.declare declared span session.diagnostics
            ((made, diagnostics), scope.table)) place.path with
          | .error error => (.error error.problem, session)
          | .ok ((made, diagnostics), after) =>
              (.ok (.truth made), { session with
                slots := session.slots.put place.slot after
                diagnostics }) := by
  simp only [declare, run_bind, run_get, run_edit]
  cases session.slots.lookup place.slot with
  | none => rfl
  | some tree =>
      simp only
      cases tree.edit _ place.path with
      | error error => rfl
      | ok result => rfl

theorem run_declareParameter (slot : String) (declared : Variable) (span : Span)
    (session : Session) :
    (declareParameter slot declared span).run.run session =
      match session.slots.lookup slot with
      | none => (.error .noSlot, session)
      | some tree =>
          match tree.method? with
          | none => (.error .notAMethod, session)
          | some method =>
              let (made, method, diagnostics) :=
                method.declareParameter declared span session.diagnostics
              (.ok (.truth made), { session with
                slots := session.slots.put slot (.ofEntry method.entry)
                diagnostics }) := by
  simp only [declareParameter, methodIn, run_bind, run_get, run_ofExcept, Slots.tree, Tree.method?]
  cases session.slots.lookup slot with
  | none => rfl
  | some tree =>
      simp only
      cases tree.member?.bind Entry.method? with
      | none => rfl
      | some method => rfl

end Step

/-- Two changes that leave the same table of the scope at the end of a path leave the
same scope above it. -/
theorem Scope.edit_alike {First Second : Type} (first : Scope → First × Table Entry)
    (second : Scope → Second × Table Entry) (scope target : Scope) (path : List String)
    (there : scope.at? path = some target) (same : (first target).2 = (second target).2) :
    (scope.edit first path).map Prod.snd = (scope.edit second path).map Prod.snd := by
  induction path generalizing scope with
  | nil =>
      cases there
      simp only [edit, Option.map_some, same]
  | cons name path ih =>
      rw [edit, edit]
      split
      · rename_i header table found
        rw [at_cons scope name path header table found] at there
        have inside := ih ⟨.nested header, table⟩ there
        obtain ⟨left, leftEdit, _⟩ := edit_at first ⟨.nested header, table⟩ target path there
        obtain ⟨right, rightEdit, _⟩ := edit_at second ⟨.nested header, table⟩ target path there
        rw [leftEdit, rightEdit] at inside ⊢
        cases inside
        rfl
      · rfl

namespace Tree

theorem edit_nowhere (tree : Tree) (path : List String) (absent : tree.scopeAt? path = none) :
    ∃ error, ∀ (Reply : Type) (change : Scope → Reply × Table Entry),
      tree.edit change path = .error error := by
  rw [scopeAt_at] at absent
  cases owned : tree.scope? with
  | none =>
      refine ⟨.notAScope, fun Reply change => ?_⟩
      rw [edit, owned]
  | some scope =>
      rw [owned, Option.bind_some] at absent
      refine ⟨.noNestedScope, fun Reply change => ?_⟩
      rw [edit, owned]
      simp only [scope.edit_none change path absent]

/-- A change of the scope at the end of a path leaves the tree that an act leaves, if
it leaves that scope the same table. -/
theorem edit_there {Reply : Type} (tree : Tree) (change : Scope → Reply × Table Entry)
    (act : Act) (path : List String) (target : Scope) (there : tree.scopeAt? path = some target)
    (same : (change target).2 = (act.on target).2) :
    tree.edit change path = .ok ((change target).1, (tree.perform (.at path act)).2) := by
  obtain ⟨scope, after, built, reached, edited, performed⟩ := tree.perform_at path act target there
  obtain ⟨changed, found, _⟩ := scope.edit_at change target path reached
  have alike := scope.edit_alike change act.on target path reached same
  rw [found, edited] at alike
  cases alike
  rw [performed, edit, built, scope.tree_scope]
  simp only [found]

end Tree

namespace Session

theorem call_entry_there (session : Session) (place : Place) (declared : Entry) (span : Span)
    (tree : Tree) (target : Scope) (filled : session.slots.lookup place.slot = some tree)
    (there : tree.scopeAt? place.path = some target) :
    session.Called (.entry place declared span) (session.call (.entry place declared span)).1
      (session.call (.entry place declared span)).2 := by
  have verdict : tree.verdict? (.entry place declared span) =
      some (target.bind declared.name declared) := by
    rw [Tree.verdict?, there, Option.map_some]
  simp only [Session.call, Call.step, Step.run_declare, filled]
  rw [tree.edit_there _ (.declare declared span) place.path target there]
  · simp only [Scope.declare]
    cases answer : target.bind declared.name declared with
    | ok bound =>
        rw [answer] at verdict
        exact .taken filled verdict
    | error refusal =>
        rw [answer] at verdict
        have same : (tree.perform (.at place.path (.declare declared span))).2 = tree :=
          tree.perform_same place.path (.declare declared span) target there
            (by simp only [Act.on, Scope.declare, answer])
        rw [same]
        exact .refused filled verdict
  · simp only [Act.on, Scope.declare]
    cases target.bind declared.name declared <;> rfl

theorem call_parameter_there (session : Session) (slot : String) (declared : Variable)
    (span : Span) (tree : Tree) (method : Method)
    (filled : session.slots.lookup (Call.parameter slot declared span).place.slot = some tree)
    (owned : tree.method? = some method) :
    session.Called (.parameter slot declared span)
      (session.call (.parameter slot declared span)).1
      (session.call (.parameter slot declared span)).2 := by
  have verdict : tree.verdict? (.parameter slot declared span) =
      some ((method.addParameter declared).map Method.scope) := by
    rw [Tree.verdict?, owned, Option.map_some]
  have found : session.slots.lookup slot = some tree := filled
  simp only [Session.call, Call.step, Step.run_declareParameter, found, owned,
    Method.declareParameter]
  cases answer : method.addParameter declared with
  | ok longer =>
      have after : (tree.perform (.declareParameter declared span)).2 = .ofEntry longer.entry := by
        simp only [Tree.perform, owned, Method.declareParameter, answer]
      rw [answer] at verdict
      have taken := Called.taken filled verdict
      rw [Call.operation, after] at taken
      exact taken
  | error refusal =>
      rw [answer] at verdict
      have refused := Called.refused filled verdict
      -- The method is put back as it was.
      rw [tree.method_some method owned] at refused
      exact refused

theorem call_called (session : Session) (call : Call) :
    session.Called call (session.call call).1 (session.call call).2 := by
  cases filled : session.slots.lookup call.place.slot with
  | none =>
      have astray : session.verdict? call = none := by rw [verdict?, filled, Option.bind_none]
      cases call with
      | entry place declared span =>
          have absent : session.slots.lookup place.slot = none := filled
          simp only [Session.call, Call.step, Step.run_declare, absent]
          exact .astray astray
      | parameter slot declared span =>
          have absent : session.slots.lookup slot = none := filled
          simp only [Session.call, Call.step, Step.run_declareParameter, absent]
          exact .astray astray
  | some tree =>
      have verdict := session.verdict_at call tree filled
      cases call with
      | entry place declared span =>
          have found : session.slots.lookup place.slot = some tree := filled
          cases there : tree.scopeAt? place.path with
          | some target =>
              exact session.call_entry_there place declared span tree target found there
          | none =>
              obtain ⟨error, failed⟩ := tree.edit_nowhere place.path there
              simp only [Session.call, Call.step, Step.run_declare, found, failed]
              exact .astray (by rw [verdict, Tree.verdict?, there, Option.map_none])
      | parameter slot declared span =>
          have found : session.slots.lookup slot = some tree := filled
          cases owned : tree.method? with
          | some method =>
              exact session.call_parameter_there slot declared span tree method filled owned
          | none =>
              simp only [Session.call, Call.step, Step.run_declareParameter, found, owned]
              exact .astray (by rw [verdict, Tree.verdict?, owned, Option.map_none])

end Session
end SymbolTable
