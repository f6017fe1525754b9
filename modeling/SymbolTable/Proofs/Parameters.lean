import SymbolTable.Proofs.Path

/-!
Parameters of a method. They share one table with the body, and a count tells
where the body begins. Parameters and other entries may be offered in any order,
and each may be refused: the parameters are what was accepted before the first
entry of the body, and once there is one no parameter is taken any more.
-/
namespace SymbolTable

inductive Addition where
  | parameter (declared : Variable)
  | binding (name : String) (entry : Entry)

namespace Addition

def parameter? : Addition → Option Variable
  | .parameter declared => some declared
  | .binding .. => none

def bound : Addition → String × Entry
  | .parameter declared => (declared.name, .leaf declared)
  | .binding name entry => (name, entry)

def operation : Addition → Operation
  | .parameter declared => .bindParameter declared
  | .binding name entry => .at [] (.bind name entry)

end Addition

namespace Method

def bind (method : Method) (name : String) (entry : Entry) : Except Refusal Method :=
  (method.scope.bind name entry).map fun scope => { method with table := scope.table }

def add (method : Method) : Addition → Except Refusal Method
  | .parameter declared => method.addParameter declared
  | .binding name entry => method.bind name entry

def addAll (method : Method) : List Addition → Method
  | [] => method
  | addition :: rest =>
      match method.add addition with
      | .ok longer => longer.addAll rest
      | .error _ => method.addAll rest

def accepted (method : Method) : List Addition → List Addition
  | [] => []
  | addition :: rest =>
      match method.add addition with
      | .ok longer => addition :: longer.accepted rest
      | .error _ => method.accepted rest

def Displays (method : Method) (text : String) : Prop :=
  method.entry.render = .ok (text, method.entry)

/-- A method that has accepted certain additions: parameters, and behind them the
body. -/
structure Holds (method : Method) (name : String) (returns : Ty) (accepted : List Addition) :
    Prop where
  name : method.name = name
  returns : method.returns = returns
  bindings : method.table.bindings = accepted.map Addition.bound
  divided : ∃ (parameters : List Variable) (body : List Addition),
    accepted = parameters.map Addition.parameter ++ body ∧
    (∀ addition ∈ body, addition.parameter? = none) ∧ method.paramCount = parameters.length

theorem displays_iff (method : Method) (text : String) :
    method.Displays text ↔ text = method.signature := by
  rw [Displays, Entry.render_eq]
  simp only [entry, Entry.text, Entry.exhausted, Except.ok.injEq, Prod.mk.injEq, and_true]
  exact eq_comm

theorem bind_ok (method longer : Method) (name : String) (entry : Entry)
    (made : method.bind name entry = .ok longer) :
    longer = { method with table := method.table.push name entry } := by
  unfold bind at made
  cases bound : method.scope.bind name entry with
  | error refusal =>
      rw [bound] at made
      cases made
  | ok scope =>
      obtain ⟨_, _, _, same⟩ := method.scope.bind_ok scope name entry bound
      rw [bound, same] at made
      cases made
      rfl

theorem addAll_cons (method : Method) (addition : Addition) (rest : List Addition) :
    method.addAll (addition :: rest) = (method.addAll [addition]).addAll rest := by
  simp only [addAll]
  cases method.add addition <;> rfl

theorem perform_add (method : Method) (addition : Addition) :
    (Tree.perform (.ofEntry method.entry) addition.operation).2 =
      .ofEntry (method.addAll [addition]).entry := by
  cases addition with
  | parameter declared =>
      have whole : (Tree.ofEntry method.entry).method? = some method := rfl
      simp only [Addition.operation, Tree.perform, whole, addAll, add]
      cases method.addParameter declared <;> rfl
  | binding name entry =>
      have whole : (Tree.ofEntry method.entry).scope? = some method.scope := rfl
      simp only [Addition.operation, Tree.perform, Tree.edit, whole, Scope.edit, Act.on, addAll,
        add, bind]
      cases method.scope.bind name entry <;> rfl

/-- Additions in a row are a run of operations on the tree of the method. -/
theorem run_addAll (method : Method) (additions : List Addition) :
    Tree.run (.ofEntry method.entry) (additions.map Addition.operation) =
      .ofEntry (method.addAll additions).entry := by
  induction additions generalizing method with
  | nil => rfl
  | cons addition rest ih =>
      rw [List.map_cons, Tree.run, perform_add, ih, ← addAll_cons]

/-- Nothing else stands against a parameter. -/
theorem addParameter_free (method : Method) (declared : Variable)
    (bodiless : method.table.size ≤ method.paramCount) (named : declared.name ≠ "")
    (fresh : method.table.lookup? declared.name = none) :
    ∃ longer, method.addParameter declared = .ok longer := by
  have free : method.scope.table.contains declared.name = false := by
    rw [Table.contains, show method.scope.table.lookup? declared.name = none from fresh,
      Option.isSome_none]
  rw [addParameter, if_neg (Nat.not_lt.mpr bodiless), Scope.insert, if_neg named, free]
  exact ⟨_, rfl⟩

namespace Holds

variable {method : Method} {name : String} {returns : Ty} {accepted : List Addition}

theorem new (made : Method.new name returns = .ok method) : method.Holds name returns [] := by
  obtain ⟨_, same⟩ := entryName_map _ _ _ made
  subst same
  exact ⟨rfl, rfl, rfl, [], [], rfl, nofun, rfl⟩

theorem size (holds : method.Holds name returns accepted) :
    method.table.size = accepted.length := by
  rw [Table.size, holds.bindings, List.length_map]

theorem names (holds : method.Holds name returns accepted) :
    method.table.names = accepted.map fun addition => addition.bound.1 := by
  rw [Table.names, holds.bindings, List.map_map]
  rfl

/-- Nothing is behind the parameters if the table holds no more than they are. -/
theorem body_nil (holds : method.Holds name returns accepted) {parameters : List Variable}
    {body : List Addition} (split : accepted = parameters.map Addition.parameter ++ body)
    (count : method.paramCount = parameters.length)
    (bodiless : method.table.size ≤ method.paramCount) : body = [] := by
  rw [holds.size, count, split, List.length_append, List.length_map] at bodiless
  exact List.eq_nil_of_length_eq_zero (by omega)

theorem bodiless_iff (holds : method.Holds name returns accepted) :
    method.table.size ≤ method.paramCount ↔
      ∀ addition ∈ accepted, addition.parameter? ≠ none := by
  obtain ⟨parameters, body, split, others, count⟩ := holds.divided
  constructor
  · intro bodiless addition member
    rw [split, holds.body_nil split count bodiless, List.append_nil] at member
    obtain ⟨declared, _, same⟩ := List.mem_map.mp member
    rw [← same]
    nofun
  · intro only
    subst split
    cases body with
    | nil =>
        apply Nat.le_of_eq
        rw [holds.size, count, List.append_nil, List.length_map]
    | cons addition rest =>
        exact absurd (others addition List.mem_cons_self) (only addition (by simp))

theorem parameters (holds : method.Holds name returns accepted) :
    method.parameters = accepted.filterMap Addition.parameter? ∧
      method.paramCount = method.parameters.length ∧
      ∃ body, accepted = method.parameters.map Addition.parameter ++ body ∧
        ∀ addition ∈ body, addition.parameter? = none := by
  obtain ⟨parameters, body, split, others, count⟩ := holds.divided
  have front : method.table.values =
      parameters.map Entry.leaf ++ body.map fun addition => addition.bound.2 := by
    rw [Table.values, holds.bindings, split, List.map_map, List.map_append, List.map_map]
    rfl
  have same : method.parameters = parameters := by
    rw [Method.parameters, front, count, List.take_left' (List.length_map _), List.filterMap_map]
    exact List.filterMap_some
  have only : accepted.filterMap Addition.parameter? = parameters := by
    rw [split, List.filterMap_append, List.filterMap_map, List.filterMap_eq_nil_iff.mpr others,
      List.append_nil]
    exact List.filterMap_some
  rw [same]
  exact ⟨only.symm, count, body, split, others⟩

/-- The step lemma: what is accepted joins what the method holds. -/
theorem step (holds : method.Holds name returns accepted) {addition : Addition} {longer : Method}
    (made : method.add addition = .ok longer) :
    longer.Holds name returns (accepted ++ [addition]) := by
  obtain ⟨parameters, body, split, others, count⟩ := holds.divided
  cases addition with
  | parameter declared =>
      obtain ⟨bodiless, _, _, same⟩ := method.addParameter_ok longer declared made
      have bare : body = [] := holds.body_nil split count bodiless
      subst same
      refine ⟨holds.name, holds.returns, ?_, parameters ++ [declared], [], ?_, nofun, ?_⟩
      · simp [Table.push, holds.bindings, Addition.bound]
      · simp [split, bare]
      · simp [count]
  | binding other entry =>
      cases method.bind_ok longer other entry made
      refine ⟨holds.name, holds.returns, ?_, parameters, body ++ [.binding other entry], ?_, ?_,
        count⟩
      · simp [Table.push, holds.bindings, Addition.bound]
      · rw [split, List.append_assoc]
      · intro addition member
        rcases List.mem_append.mp member with before | last
        · exact others addition before
        · rw [List.mem_singleton.mp last]
          rfl

/-- The run lemma. -/
theorem run (holds : method.Holds name returns accepted) (additions : List Addition) :
    (method.addAll additions).Holds name returns (accepted ++ method.accepted additions) := by
  induction additions generalizing method accepted with
  | nil => rwa [addAll, Method.accepted, List.append_nil]
  | cons addition rest ih =>
      rw [addAll, Method.accepted]
      cases made : method.add addition with
      | error refusal => exact ih holds
      | ok longer => simpa using ih (holds.step made)

theorem accepts_iff (holds : method.Holds name returns accepted) (declared : Variable)
    (named : declared.name ≠ "") :
    (∃ longer, method.addParameter declared = .ok longer) ↔
      (∀ addition ∈ accepted, addition.parameter? ≠ none) ∧
        ∀ addition ∈ accepted, addition.bound.1 ≠ declared.name := by
  have fresh : method.table.lookup? declared.name = none ↔
      ∀ addition ∈ accepted, addition.bound.1 ≠ declared.name := by
    rw [Table.lookup_none_iff, holds.names, List.mem_map]
    simp only [not_exists, not_and, ne_eq]
  rw [← holds.bodiless_iff, ← fresh]
  constructor
  · rintro ⟨longer, made⟩
    obtain ⟨bodiless, _, free, _⟩ := method.addParameter_ok longer declared made
    exact ⟨bodiless, free⟩
  · rintro ⟨bodiless, free⟩
    exact method.addParameter_free declared bodiless named free

theorem closed (holds : method.Holds name returns accepted)
    (opened : ∃ addition ∈ accepted, addition.parameter? = none) (declared : Variable) :
    method.addParameter declared = .error (.parameterAfterBody declared.name name) := by
  have behind : ¬ method.table.size ≤ method.paramCount := by
    rw [holds.bodiless_iff]
    obtain ⟨addition, member, other⟩ := opened
    exact fun only => only addition member other
  rw [addParameter, if_pos (Nat.lt_of_not_le behind), holds.name]

theorem displays (holds : method.Holds name returns accepted) :
    method.Displays (returns.text ++ " " ++ name ++ "(" ++
      ", ".intercalate ((accepted.filterMap Addition.parameter?).map Variable.text) ++ ")") := by
  rw [displays_iff, signature, holds.name, holds.returns, holds.parameters.1]

end Holds

/-- A parameter is a leaf, so the parameters are read off the leaves alone. -/
theorem parameters_eq_leaves (method : Method) :
    method.parameters =
      ((method.table.values.map Entry.leaf?).take method.paramCount).filterMap id := by
  rw [parameters, ← List.map_take, List.filterMap_map]
  rfl

/-- The inside of a scope of the body does not show in the signature. -/
theorem signature_replace (method : Method) (name : String) (header : Header)
    (table inner : Table Entry) (found : method.table.lookup? name = some (.scope header table)) :
    signature { method with table := method.table.replace name (.scope header inner) } =
      method.signature := by
  obtain ⟨before, behind, split, replaced⟩ :=
    method.table.replace_splits name _ (.scope header inner) found
  have leaves : (method.table.replace name (.scope header inner)).values.map Entry.leaf? =
      method.table.values.map Entry.leaf? := by
    rw [Table.values, Table.values, split, replaced]
    simp [Entry.leaf?]
  rw [signature, signature, parameters_eq_leaves, parameters_eq_leaves, leaves]

theorem signature_inside (method : Method) (first : String) (rest : List String) (act : Act) :
    ∃ later : Method, (Tree.perform (.ofEntry method.entry) (.at (first :: rest) act)).2 =
      .ofEntry later.entry ∧ later.signature = method.signature := by
  cases there : Tree.scopeAt? (.ofEntry method.entry) (first :: rest) with
  | none => exact ⟨method, Tree.perform_nowhere _ _ act there, rfl⟩
  | some target =>
      obtain ⟨scope, after, same, _, edited, performed⟩ := Tree.perform_at _ _ act target there
      have owned := congrArg Tree.scope? same
      rw [scope.tree_scope] at owned
      have whole : scope = method.scope := (Option.some.inj owned).symm
      obtain ⟨header, table, inner, found, _, built⟩ :=
        Scope.edit_cons act.on scope after first rest _ edited
      rw [whole] at found built
      refine ⟨{ method with table := method.table.replace first (.scope header inner.table) }, ?_,
        method.signature_replace first header table inner.table found⟩
      rw [performed, built]
      rfl

/-- A method that was made as `name` with type `returns` and has accepted certain
additions since. -/
structure ParametersFirst (after : Method) (name : String) (returns : Ty)
    (accepted : List Addition) : Prop where
  bindings : after.table.bindings = accepted.map Addition.bound
  parameters : after.parameters = accepted.filterMap Addition.parameter?
  paramCount : after.paramCount = after.parameters.length
  ordered : ∃ body, accepted = after.parameters.map Addition.parameter ++ body ∧
    ∀ addition ∈ body, addition.parameter? = none
  accepts : ∀ given ty declared, Variable.new given ty = .ok declared →
    ((∃ longer, after.addParameter declared = .ok longer) ↔
      (∀ addition ∈ accepted, addition.parameter? ≠ none) ∧
        ∀ addition ∈ accepted, addition.bound.1 ≠ declared.name)
  closed : (∃ addition ∈ accepted, addition.parameter? = none) →
    ∀ declared, after.addParameter declared = .error (.parameterAfterBody declared.name name)
  refused : ∀ other entry refusal, after.bind other entry = .error refusal →
    ∀ declared, (after.addAll [.binding other entry]).addParameter declared =
      after.addParameter declared
  displays : after.Displays (returns.text ++ " " ++ name ++ "(" ++
    ", ".intercalate ((accepted.filterMap Addition.parameter?).map Variable.text) ++ ")")
  bound : ∀ other entry longer, after.bind other entry = .ok longer →
    ∀ text, after.Displays text → longer.Displays text
  inside : ∀ first rest act, ∃ later : Method,
    (Tree.perform (.ofEntry after.entry) (.at (first :: rest) act)).2 = .ofEntry later.entry ∧
      ∀ text, after.Displays text → later.Displays text

/-- The parameters of a method are the accepted parameters in the order in which they
were offered, and they were all accepted before anything else: whatever a new method
is offered, it takes a parameter exactly as long as it has accepted nothing but
parameters, of other names, and its text shows its parameters and nothing of its
body. -/
theorem parameters_accepted_first (name : String) (returns : Ty) (method : Method)
    (made : Method.new name returns = .ok method) (additions : List Addition) :
    Tree.run (.ofEntry method.entry) (additions.map Addition.operation) =
        .ofEntry (method.addAll additions).entry ∧
      (method.addAll additions).ParametersFirst name returns (method.accepted additions) := by
  have holds : (method.addAll additions).Holds name returns (method.accepted additions) :=
    (Holds.new made).run additions
  obtain ⟨parameters, paramCount, ordered⟩ := holds.parameters
  refine ⟨method.run_addAll additions, holds.bindings, parameters, paramCount, ordered, ?_,
    holds.closed, ?_, holds.displays, ?_, ?_⟩
  · intro given ty declared built
    obtain ⟨named, same⟩ := entryName_map _ _ _ built
    subst same
    exact holds.accepts_iff ⟨given, ty⟩ named
  · intro other entry refusal failed declared
    rw [addAll, add, failed, addAll]
  · intro other entry longer bound text shown
    have further :
        longer.Holds name returns (method.accepted additions ++ [.binding other entry]) :=
      holds.step bound
    have same : longer.parameters = (method.addAll additions).parameters := by
      rw [further.parameters.1, parameters, List.filterMap_append, List.filterMap_cons_none rfl,
        List.filterMap_nil, List.append_nil]
    rw [displays_iff] at shown ⊢
    rw [shown, signature, signature, same, further.name, further.returns, holds.name, holds.returns]
  · intro first rest act
    obtain ⟨later, performed, same⟩ := (method.addAll additions).signature_inside first rest act
    refine ⟨later, performed, ?_⟩
    intro text shown
    rw [displays_iff] at shown ⊢
    rw [shown, same]

/-- A refused local leaves the list of parameters open; the local accepted after a
second parameter closes it, also to a name that is bound already. -/
theorem parameters_accepted_first_interleaved :
    let x : Variable := ⟨"x", .int⟩
    let y : Variable := ⟨"y", .float⟩
    let block : Entry := .scope (.block "block#0") .empty
    let additions : List Addition := [.parameter x, .binding "x" block, .parameter y, .parameter x,
      .binding "b" block, .parameter ⟨"z", .int⟩, .parameter x]
    let method : Method := ⟨"m", .void, 0, .empty⟩
    let after := method.addAll additions
    Method.new "m" .void = .ok method ∧
      method.accepted additions = [.parameter x, .parameter y, .binding "b" block] ∧
      after.ParametersFirst "m" .void [.parameter x, .parameter y, .binding "b" block] ∧
      after.parameters = [x, y] ∧ after.Displays "void m(int x, float y)" ∧
      after.addParameter x = .error (.parameterAfterBody "x" "m") := by
  intro x y block additions method after
  have made : Method.new "m" .void = .ok method := rfl
  obtain ⟨_, first⟩ := parameters_accepted_first "m" .void method made additions
  exact ⟨made, rfl, first, rfl, first.displays, rfl⟩

end Method
end SymbolTable
