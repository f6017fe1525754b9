import SymbolTable.Proofs.FirstWins
import SymbolTable.Proofs.Parameters
import SymbolTable.Proofs.Session.Scopes

/-!
Why a binding or a parameter is refused. Several reasons can stand against it at
once, and the first of them is the answer: a class looks at the kind before
anything else, then comes the empty name, then the name that is taken. A method
that has a body takes no parameter whatever its name; otherwise only a name that
is taken stands against one, since no variable is without a name.
-/
namespace SymbolTable

namespace Scope

def Bars (scope : Scope) (entry : Entry) : Prop :=
  scope.kind = .class ∧ entry.kind = .block

/-- What a scope answers to a binding, each answer with exactly the condition
under which it is given. -/
structure Answers (scope : Scope) (name : String) (entry : Entry) : Prop where
  disallowedKind : ∀ refused kind owner,
    scope.bind name entry = .error (.disallowedKind refused kind owner) ↔
      scope.Bars entry ∧ refused = name ∧ kind = entry.kind ∧ owner = scope.name
  emptyName : ∀ owner kind,
    scope.bind name entry = .error (.emptyName owner kind) ↔
      ¬ scope.Bars entry ∧ name = "" ∧ owner = scope.name ∧ kind = scope.kind
  duplicateName : ∀ refused owner kind,
    scope.bind name entry = .error (.duplicateName refused owner kind) ↔
      ¬ scope.Bars entry ∧ name ≠ "" ∧ name ∈ scope.table.names ∧
        refused = name ∧ owner = scope.name ∧ kind = scope.kind
  parameterAfterBody : ∀ refused owner,
    scope.bind name entry ≠ .error (.parameterAfterBody refused owner)
  bound : ∀ after, scope.bind name entry = .ok after ↔
    ¬ scope.Bars entry ∧ name ≠ "" ∧ name ∉ scope.table.names ∧
      after = { scope with table := scope.table.push name entry }

theorem admits_iff_bars (scope : Scope) (entry : Entry) :
    scope.admits entry.kind ↔ ¬ scope.Bars entry := by
  rw [admits_iff, Bars, not_and]

theorem bind_barred (scope : Scope) (name : String) (entry : Entry) (barred : scope.Bars entry) :
    scope.bind name entry = .error (.disallowedKind name entry.kind scope.name) := by
  have closed : ¬ scope.admits entry.kind = true := by
    rw [admits_iff_bars]
    exact not_not_intro barred
  rw [bind, if_neg closed]

theorem insert_empty (scope : Scope) (entry : Entry) :
    scope.insert "" entry = .error (.emptyName scope.name scope.kind) := by
  rw [insert, if_pos rfl]

theorem insert_taken (scope : Scope) (name : String) (entry : Entry) (named : name ≠ "")
    (taken : name ∈ scope.table.names) :
    scope.insert name entry = .error (.duplicateName name scope.name scope.kind) := by
  rw [insert, if_neg named, if_pos ((scope.table.contains_iff name).mpr taken)]

/-- The reasons against a binding, in their order. -/
theorem bind_answers (scope : Scope) (name : String) (entry : Entry) :
    scope.Answers name entry := by
  by_cases barred : scope.Bars entry
  · have answer := scope.bind_barred name entry barred
    constructor <;> simp [answer, barred, eq_comm]
  have admitted := (scope.admits_iff_bars entry).mpr barred
  by_cases named : name = ""
  · subst named
    have answer : scope.bind "" entry = .error (.emptyName scope.name scope.kind) := by
      rw [bind, if_pos admitted, insert_empty]
    constructor <;> simp [answer, barred, eq_comm]
  by_cases taken : name ∈ scope.table.names
  · have answer : scope.bind name entry =
        .error (.duplicateName name scope.name scope.kind) := by
      rw [bind, if_pos admitted, scope.insert_taken name entry named taken]
    constructor <;> simp [answer, barred, named, taken, eq_comm]
  · have answer :=
      scope.bind_free name entry admitted named ((scope.table.lookup_none_iff name).mpr taken)
    constructor <;> simp [answer, barred, named, taken, eq_comm]

end Scope

namespace Method

/-- What a method answers to a parameter, each answer with exactly the condition
under which it is given. -/
structure Answers (method : Method) (parameter : Variable) : Prop where
  parameterAfterBody : ∀ refused owner,
    method.addParameter parameter = .error (.parameterAfterBody refused owner) ↔
      method.HoldsBody ∧ refused = parameter.name ∧ owner = method.name
  duplicateName : ∀ refused owner kind,
    method.addParameter parameter = .error (.duplicateName refused owner kind) ↔
      ¬ method.HoldsBody ∧ parameter.name ∈ method.table.names ∧
        refused = parameter.name ∧ owner = method.name ∧ kind = .method
  emptyName : ∀ owner kind, method.addParameter parameter ≠ .error (.emptyName owner kind)
  disallowedKind : ∀ refused kind owner,
    method.addParameter parameter ≠ .error (.disallowedKind refused kind owner)
  added : (∃ longer, method.addParameter parameter = .ok longer) ↔
    ¬ method.HoldsBody ∧ parameter.name ∉ method.table.names

/-- The reasons against a parameter, in their order. -/
theorem addParameter_answers (method : Method) (sound : method.entry.WellFormed)
    (parameter : Variable) (named : parameter.name ≠ "") : method.Answers parameter := by
  by_cases body : method.paramCount < method.table.size
  · have held := (method.holdsBody_iff sound).mpr body
    have answer : method.addParameter parameter =
        .error (.parameterAfterBody parameter.name method.name) := by
      rw [addParameter, if_pos body]
    constructor <;> simp [answer, held, eq_comm]
  have bodiless := mt (method.holdsBody_iff sound).mp body
  by_cases taken : parameter.name ∈ method.table.names
  · have answer : method.addParameter parameter =
        .error (.duplicateName parameter.name method.name .method) := by
      rw [addParameter, if_neg body, method.scope.insert_taken _ _ named taken]
      rfl
    constructor <;> simp [answer, bodiless, taken, eq_comm]
  · obtain ⟨longer, answer⟩ := method.addParameter_free parameter (Nat.le_of_not_lt body) named
      ((method.table.lookup_none_iff _).mpr taken)
    constructor <;> simp [answer, bodiless, taken]

end Method

/-- Each reason is told exactly when it applies and no earlier one does: to a binding in
any scope, whatever the name and the entry, and to a parameter of any method. -/
theorem refusals_exact :
    (∀ (scope : Scope) (name : String) (entry : Entry), scope.Answers name entry) ∧
      ∀ (method : Method) (parameter : Variable), Obtainable (.ofEntry method.entry) →
        Obtainable (.ofEntry (.leaf parameter)) → method.Answers parameter := by
  refine ⟨Scope.bind_answers, ?_⟩
  intro method parameter obtained made
  have named : parameter.name ≠ "" := by
    cases made.wellFormed with
    | leaf named => exact named
  exact method.addParameter_answers obtained.wellFormed parameter named

/-- All reasons at once: a block without a name and one whose name is taken, offered to a
class, and a second parameter of one name, offered behind the body. -/
theorem refusals_exact_overlapping :
    let x : Variable := ⟨"x", .int⟩
    let block : Entry := .scope (.block "x") .empty
    let point : Scope := ⟨.nested (.class "Point" none), ⟨[("x", .leaf x)], none⟩⟩
    let method : Method := ⟨"m", .void, 1, ⟨[("x", .leaf x), ("b", block)], none⟩⟩
    Obtainable (.ofEntry method.entry) ∧ Obtainable (.ofEntry (.leaf x)) ∧
      (point.Answers "" block ∧
        point.bind "" block = .error (.disallowedKind "" .block "Point")) ∧
      (point.Answers "x" block ∧
        point.bind "x" block = .error (.disallowedKind "x" .block "Point")) ∧
      method.Answers x ∧ method.addParameter x = .error (.parameterAfterBody "x" "m") := by
  intro x block point method
  have parameter : Obtainable (.ofEntry (.leaf x)) := @Obtainable.variable "x" .int x rfl
  have blockMade : Obtainable (.ofEntry block) :=
    @Obtainable.block "x" ⟨.nested (.block "x"), .empty⟩ rfl
  have obtained : Obtainable (.ofEntry method.entry) := by
    have start := @Obtainable.method "m" .void ⟨"m", .void, 0, .empty⟩ rfl
    exact start.run [.bindParameter x, .at [] (.bind "b" block)]
      (by simp [Operation.brought?, Act.brought?, parameter, blockMade])
  have barred : point.Bars block := ⟨rfl, rfl⟩
  obtain ⟨bindings, parameters⟩ := refusals_exact
  have nameless := bindings point "" block
  have doubled := bindings point "x" block
  have late := parameters method x obtained parameter
  have body : method.HoldsBody := ⟨"b", by decide, by decide⟩
  exact ⟨obtained, parameter, ⟨nameless, (nameless.disallowedKind ..).mpr ⟨barred, rfl, rfl, rfl⟩⟩,
    ⟨doubled, (doubled.disallowedKind ..).mpr ⟨barred, rfl, rfl, rfl⟩⟩, late,
    (late.parameterAfterBody ..).mpr ⟨body, rfl, rfl⟩⟩

end SymbolTable
