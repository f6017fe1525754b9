import SymbolTable.Proofs.Refusal
import SymbolTable.Proofs.Session.Runs

/-!
Diagnostics as an account of declarations. A run of calls to a session reports each
call that it answers with a refusal, in order, at the span of that call and with the
code of the reason; it reports nothing else. The reasons can be read off the session
as the call finds it, and so off the calls before it.
-/
namespace SymbolTable

/-- What can be declared has a name. -/
theorem Entry.WellFormed.named {entry : Entry} (sound : entry.WellFormed) : entry.name ≠ "" := by
  cases sound with
  | leaf named => exact named
  | scope proper inside => exact proper.named

namespace Session

def Reaches (session : Session) : Call → Prop
  | .entry place _ _ => ∃ scope, session.scopeAt? place = some scope
  | .parameter slot _ _ => ∃ method, session.methodAt? slot = some method

def Disallows (session : Session) : Call → Prop
  | .entry place declared _ =>
      declared.kind = .block ∧ ∃ scope, session.scopeAt? place = some scope ∧ scope.kind = .class
  | .parameter .. => False

def Late (session : Session) : Call → Prop
  | .entry .. => False
  | .parameter slot _ _ => ∃ method, session.methodAt? slot = some method ∧ method.HoldsBody

def Binds (session : Session) (place : Place) (name : String) : Prop :=
  ∃ scope, session.scopeAt? place = some scope ∧ name ∈ scope.table.names

/-- What a session answers to a call, and what it reports for it. -/
structure Answers (session : Session) (call : Call) (reply : Except Problem Reply)
    (report? : Option Diagnostic) : Prop where
  reached : (∃ made, reply = .ok (.truth made)) ↔ session.Reaches call
  refused : reply = .ok (.truth false) ↔ report? ≠ none
  span : ∀ report, report? = some report → report.span? = some call.span
  disallowed : Coded report? 2002 ↔ session.Disallows call
  late : Coded report? 2004 ↔ session.Late call
  duplicate : Coded report? 2001 ↔ session.Reaches call ∧ ¬ session.Disallows call ∧
    ¬ session.Late call ∧ session.Binds call.place call.declared.name
  only : ∀ code, Coded report? code → code ∈ [2001, 2002, 2004]

inductive Judged (session : Session) (call : Call) : Option (Except Refusal Scope) → Prop where
  | astray : ¬ session.Reaches call → Judged session call none
  | taken {bound} : session.Reaches call → ¬ session.Disallows call → ¬ session.Late call →
      ¬ session.Binds call.place call.declared.name → Judged session call (some (.ok bound))
  | disallowed {refusal} : session.Reaches call → session.Disallows call → ¬ session.Late call →
      (∀ span, (refusal.diagnostic span).message.code = 2002) →
      Judged session call (some (.error refusal))
  | late {refusal} : session.Reaches call → ¬ session.Disallows call → session.Late call →
      (∀ span, (refusal.diagnostic span).message.code = 2004) →
      Judged session call (some (.error refusal))
  | duplicate {refusal} : session.Reaches call → ¬ session.Disallows call →
      ¬ session.Late call → session.Binds call.place call.declared.name →
      (∀ span, (refusal.diagnostic span).message.code = 2001) →
      Judged session call (some (.error refusal))

def report? (session : Session) (call : Call) : Option Diagnostic :=
  match session.verdict? call with
  | some (.error refusal) => some (refusal.diagnostic call.span)
  | _ => none

theorem verdict_entry (session : Session) (place : Place) (declared : Entry) (span : Span) :
    session.verdict? (.entry place declared span) =
      (session.scopeAt? place).map fun scope => scope.bind declared.name declared := by
  rw [verdict?, scopeAt?, Call.place]
  cases session.slots.lookup place.slot <;> rfl

theorem verdict_parameter (session : Session) (slot : String) (declared : Variable) (span : Span) :
    session.verdict? (.parameter slot declared span) = (session.methodAt? slot).map fun method =>
      (method.addParameter declared).map Method.scope := by
  rw [verdict?, methodAt?, Call.place]
  cases session.slots.lookup slot <;> rfl

theorem scopeAt_method (session : Session) (slot : String) (method : Method)
    (owned : session.methodAt? slot = some method) :
    session.scopeAt? ⟨slot, []⟩ = some method.scope := by
  obtain ⟨tree, filled, found⟩ := Option.bind_eq_some_iff.mp owned
  rw [scopeAt?, filled, Option.bind_some, tree.method_some method found]
  rfl

theorem Made.method {session : Session} (made : session.Made) (slot : String) (method : Method)
    (owned : session.methodAt? slot = some method) : method.entry.WellFormed := by
  obtain ⟨tree, filled, found⟩ := Option.bind_eq_some_iff.mp owned
  have sound := (made slot tree filled).wellFormed
  rwa [tree.method_some method found] at sound

theorem judged_entry (session : Session) (place : Place) (declared : Entry) (span : Span)
    (named : declared.name ≠ "") :
    session.Judged (.entry place declared span)
      (session.verdict? (.entry place declared span)) := by
  rw [verdict_entry]
  cases there : session.scopeAt? place with
  | none =>
      refine .astray ?_
      rintro ⟨scope, reached⟩
      rw [there] at reached
      cases reached
  | some scope =>
      have reached : session.Reaches (.entry place declared span) := ⟨scope, there⟩
      have disallows : session.Disallows (.entry place declared span) ↔
          declared.kind = .block ∧ scope.kind = .class := by
        simp [Disallows, there]
      have binds : session.Binds place declared.name ↔ declared.name ∈ scope.table.names := by
        simp [Binds, there]
      rw [Option.map_some]
      rcases scope.bind_binds declared.name declared with ⟨bound, made, taken⟩ | ⟨refusal, failed, refused⟩
      · rw [made]
        cases taken with
        | taken admitted _ fresh =>
            refine .taken reached ?_ id ?_
            · rw [disallows]
              exact fun block => admitted block.2 block.1
            · exact fun known => fresh (binds.mp known)
      · rw [failed]
        cases refused with
        | refused refuses =>
            cases refuses with
            | disallowed owner block =>
                exact .disallowed reached (disallows.mpr ⟨block, owner⟩) id fun _ => rfl
            | unnamed _ empty => exact absurd empty named
            | duplicate admitted _ member =>
                refine .duplicate reached ?_ id (binds.mpr member) fun _ => rfl
                rw [disallows]
                exact fun block => admitted block.2 block.1

theorem judged_parameter (session : Session) (slot : String) (declared : Variable) (span : Span)
    (made : session.Made) (named : declared.name ≠ "") :
    session.Judged (.parameter slot declared span)
      (session.verdict? (.parameter slot declared span)) := by
  rw [verdict_parameter]
  cases owned : session.methodAt? slot with
  | none =>
      refine .astray ?_
      rintro ⟨method, reached⟩
      rw [owned] at reached
      cases reached
  | some method =>
      have reached : session.Reaches (.parameter slot declared span) := ⟨method, owned⟩
      have sound := made.method slot method owned
      have late : session.Late (.parameter slot declared span) ↔
          method.paramCount < method.table.size := by
        rw [← method.holdsBody_iff sound]
        simp [Late, owned]
      have binds : session.Binds ⟨slot, []⟩ declared.name ↔
          declared.name ∈ method.table.names := by
        simp [Binds, session.scopeAt_method slot method owned]
        rfl
      rw [Option.map_some]
      by_cases body : method.paramCount < method.table.size
      · rw [Method.addParameter, if_pos body]
        exact .late reached id (late.mpr body) fun _ => rfl
      · have open' : ¬ session.Late (.parameter slot declared span) := fun behind =>
          body (late.mp behind)
        rw [Method.addParameter, if_neg body, Scope.insert, if_neg named]
        have contains := method.table.contains_iff declared.name
        by_cases known : method.table.contains declared.name = true
        · rw [if_pos (show method.scope.table.contains declared.name = true from known)]
          exact .duplicate reached id open' (binds.mpr (contains.mp known)) fun _ => rfl
        · rw [if_neg (show ¬ method.scope.table.contains declared.name = true from known)]
          exact .taken reached id open' fun member => known (contains.mpr (binds.mp member))

theorem judged (session : Session) (made : session.Made) (call : Call)
    (brought : Obtainable (.ofEntry call.declared)) :
    session.Judged call (session.verdict? call) := by
  have sound : call.declared.WellFormed := brought.wellFormed
  have named : call.declared.name ≠ "" := sound.named
  cases call with
  | entry place declared span => exact session.judged_entry place declared span named
  | parameter slot declared span => exact session.judged_parameter slot declared span made named

theorem disallows_reaches (session : Session) (call : Call) (disallows : session.Disallows call) :
    session.Reaches call := by
  cases call with
  | entry place declared span =>
      obtain ⟨_, scope, there, _⟩ := disallows
      exact ⟨scope, there⟩
  | parameter slot declared span => exact disallows.elim

theorem late_reaches (session : Session) (call : Call) (late : session.Late call) :
    session.Reaches call := by
  cases call with
  | entry place declared span => exact late.elim
  | parameter slot declared span =>
      obtain ⟨method, owned, _⟩ := late
      exact ⟨method, owned⟩

theorem call_answers (session : Session) (made : session.Made) (call : Call)
    (brought : Obtainable (.ofEntry call.declared)) :
    session.Answers call (session.call call).1 (session.report? call) := by
  have judged := session.judged made call brought
  have called := session.call_called call
  generalize (session.call call).1 = reply at called ⊢
  generalize (session.call call).2 = after at called
  cases called with
  | astray absent =>
      rw [report?, absent]
      rw [absent] at judged
      cases judged with
      | astray astray =>
          have allowed : ¬ session.Disallows call := fun disallows =>
            astray (session.disallows_reaches call disallows)
          have early : ¬ session.Late call := fun late => astray (session.late_reaches call late)
          constructor <;> simp [Coded, astray, allowed, early]
  | @taken tree bound filled verdict =>
      have taken := (session.verdict_at call tree filled).trans verdict
      rw [report?, taken]
      rw [taken] at judged
      cases judged with
      | taken reached allowed early fresh =>
          constructor <;> simp [Coded, reached, allowed, early, fresh]
  | @refused tree refusal filled verdict =>
      have refused := (session.verdict_at call tree filled).trans verdict
      have located := refusal.diagnostic_located call.span
      rw [report?, refused]
      rw [refused] at judged
      cases judged with
      | disallowed reached disallows early told =>
          constructor <;> simp [Coded, told, located.1, reached, disallows, early]
      | late reached allowed late told =>
          constructor <;> simp [Coded, told, located.1, reached, allowed, late]
      | duplicate reached allowed early known told =>
          constructor <;> simp [Coded, told, located.1, reached, allowed, early, known]

theorem call_reports (session : Session) (call : Call) :
    (session.call call).2.diagnostics.all =
      session.diagnostics.all ++ (session.report? call).toList := by
  have called := session.call_called call
  generalize (session.call call).1 = reply at called
  generalize (session.call call).2 = after at called ⊢
  cases called with
  | astray absent => simp [report?, absent]
  | @taken tree bound filled verdict =>
      have taken := (session.verdict_at call tree filled).trans verdict
      simp [report?, taken]
  | @refused tree refusal filled verdict =>
      have refused := (session.verdict_at call tree filled).trans verdict
      simp [report?, refused, Diagnostics.add]

def reports (session : Session) : List Call → List (Option Diagnostic) :=
  session.along report?

/-- The run lemma for the diagnostics. -/
theorem after_diagnostics (session : Session) (calls : List Call) :
    (session.after calls).diagnostics.all =
      session.diagnostics.all ++ (session.reports calls).filterMap id := by
  induction calls generalizing session with
  | nil => exact (List.append_nil _).symm
  | cons call rest ih =>
      rw [after, ih, call_reports, List.append_assoc]
      cases told : session.report? call <;> simp [reports, along, told]

/-- A run of calls, and what it reports for each of them. -/
structure Accounts (session : Session) (calls : List Call) (reports : List (Option Diagnostic)) :
    Prop where
  diagnostics : (session.after calls).diagnostics.all =
    session.diagnostics.all ++ reports.filterMap id
  length : reports.length = calls.length
  answers : ∀ (position : Nat) call, calls[position]? = some call →
    ∃ reply report?, (session.replies calls)[position]? = some reply ∧
      reports[position]? = some report? ∧
      (session.after (calls.take position)).Answers call reply report?
  binds : ∀ (position : Nat) place scope name, session.scopeAt? place = some scope →
    ((session.after (calls.take position)).Binds place name ↔ name ∈ scope.table.names ∨
      ∃ earlier ∈ session.accepted (calls.take position),
        earlier.place = place ∧ earlier.declared.name = name)
  holdsBody : ∀ (position : Nat) slot method, session.methodAt? slot = some method →
    ∃ later, (session.after (calls.take position)).methodAt? slot = some later ∧
      (later.HoldsBody ↔ method.HoldsBody ∨
        ∃ earlier ∈ session.accepted (calls.take position), earlier.OpensBody slot)
  scopes : ∀ place scope, session.scopeAt? place = some scope →
    ∃ later, (session.after calls).scopeAt? place = some later ∧
      scope.Longer later (Call.bindingsAt place (session.accepted calls))
  taken : ∀ (position : Nat) call, calls[position]? = some call →
    (session.replies calls)[position]? = some (.ok (.truth true)) →
    ∃ before behind, (session.after (calls.take position)).scopeAt? call.place = some before ∧
      (session.after (calls.take (position + 1))).scopeAt? call.place = some behind ∧
      behind.table.bindings = before.table.bindings ++ [(call.declared.name, call.declared)]

theorem call_takes (session : Session) (call : Call)
    (answered : (session.call call).1 = .ok (.truth true)) :
    ∃ before behind, session.scopeAt? call.place = some before ∧
      (session.call call).2.scopeAt? call.place = some behind ∧
      behind.table.bindings = before.table.bindings ++ [(call.declared.name, call.declared)] := by
  rcases (session.call_called call).slots call.place.slot with
    ⟨_, apart⟩ | ⟨tree, bound, filled, _, verdict, _, left⟩
  · exact absurd rfl (apart (by rw [answered]; rfl))
  · obtain ⟨before, there, behind, same, _⟩ := tree.taken_there call bound verdict
    refine ⟨before, bound, ?_, ?_, by rw [same]; rfl⟩
    · rw [scopeAt?, filled, Option.bind_some, there]
    · rw [scopeAt?, left, Option.bind_some, behind]

/-- From any call of a run on, whatever the calls before it were, the diagnostics account
for the declarations. -/
theorem declarations_accounted (session : Session) (made : session.Made) (front calls : List Call)
    (brought : ∀ call ∈ front ++ calls, Obtainable (.ofEntry call.declared)) :
    ∃ reports, (session.after front).Accounts calls reports := by
  rw [List.forall_mem_append] at brought
  have start := session.after_made made front brought.1
  generalize session.after front = session at start
  have early : ∀ position, ∀ call ∈ calls.take position, Obtainable (.ofEntry call.declared) :=
    fun position call inside => brought.2 call (List.mem_of_mem_take inside)
  refine ⟨session.reports calls, ?_⟩
  constructor
  case diagnostics => exact session.after_diagnostics calls
  case length => exact session.along_length report? calls
  case answers =>
    intro position call called
    have now := session.after_made start (calls.take position) (early position)
    have answers := call_answers _ now call (brought.2 call (List.mem_of_getElem? called))
    refine ⟨_, _, ?_, ?_, answers⟩
    · rw [replies, along_at, called, Option.map_some]
    · rw [reports, along_at, called, Option.map_some]
  case binds =>
    intro position place scope name there
    obtain ⟨later, here, longer⟩ := session.after_scope (calls.take position) place scope there
    have bound : (session.after (calls.take position)).Binds place name ↔
        name ∈ later.table.names := by
      simp [Binds, here]
    rw [bound, longer.names, List.mem_append]
    simp [Call.bindingsAt, Call.binding, and_assoc]
  case holdsBody =>
    intro position slot method owned
    exact session.after_method start (calls.take position) (early position) slot method owned
  case scopes => exact session.after_scope calls
  case taken =>
    intro position call called answered
    rw [replies, along_at, called, Option.map_some, Option.some.injEq] at answered
    have next : session.after (calls.take (position + 1)) =
        ((session.after (calls.take position)).call call).2 := by
      rw [List.take_add_one, called, after_append]
      rfl
    rw [next]
    exact call_takes _ call answered

/-- A class is offered a block and a name twice; a method is offered a parameter again
behind its body, and the block that opened it a name twice. -/
theorem declarations_accounted_body :
    let x : Entry := .leaf ⟨"x", .int⟩
    let block : Entry := .scope (.block "block#0") .empty
    let n : Variable := ⟨"n", .int⟩
    let earlier : Diagnostic := .unlocated .kindNotAllowed []
    let session : Session := ⟨[("c", .ofEntry (.scope (.class "Point" none) .empty)),
      ("m", .ofEntry (.scope (.method "f" .void 0) .empty))], .empty, ⟨[earlier]⟩⟩
    let front : List Call := [.entry ⟨"c", []⟩ x ⟨1, 1⟩, .entry ⟨"c", []⟩ block ⟨2, 1⟩,
      .entry ⟨"c", []⟩ x ⟨3, 1⟩, .parameter "m" n ⟨4, 1⟩, .entry ⟨"m", []⟩ block ⟨5, 1⟩]
    let calls : List Call := [.entry ⟨"m", ["block#0"]⟩ x ⟨6, 1⟩, .parameter "m" n ⟨7, 1⟩,
      .entry ⟨"m", ["block#0"]⟩ x ⟨8, 1⟩, .entry ⟨"m", ["x"]⟩ x ⟨9, 1⟩]
    (∃ reports, (session.after front).Accounts calls reports) ∧
      (session.after (front ++ calls)).diagnostics.all.map
          (fun report => (report.span?, report.message.code)) =
        [(none, 2002), (some ⟨2, 1⟩, 2002), (some ⟨3, 1⟩, 2001), (some ⟨7, 1⟩, 2004),
          (some ⟨8, 1⟩, 2001)] := by
  intro x block n earlier session front calls
  have xMade : Obtainable (.ofEntry x) := @Obtainable.variable "x" .int ⟨"x", .int⟩ rfl
  have nMade : Obtainable (.ofEntry (.leaf n)) := @Obtainable.variable "n" .int n rfl
  have blockMade : Obtainable (.ofEntry block) :=
    @Obtainable.block "block#0" ⟨.nested (.block "block#0"), .empty⟩ rfl
  have classMade : Obtainable (.ofEntry (.scope (.class "Point" none) .empty)) :=
    @Obtainable.class "Point" ⟨"Point", none, .empty⟩ rfl
  have methodMade : Obtainable (.ofEntry (.scope (.method "f" .void 0) .empty)) :=
    @Obtainable.method "f" .void ⟨"f", .void, 0, .empty⟩ rfl
  have made : session.Made := by
    intro slot tree filled
    obtain ⟨before, behind, split, _⟩ := List.lookup_eq_some_iff.mp filled
    have held : (slot, tree) ∈ session.slots := by
      rw [split]
      exact List.mem_append_right before List.mem_cons_self
    simp only [session, List.mem_cons, Prod.mk.injEq, List.not_mem_nil, or_false] at held
    rcases held with ⟨_, same⟩ | ⟨_, same⟩ <;> subst same
    · exact classMade
    · exact methodMade
  have brought : ∀ call ∈ front ++ calls, Obtainable (.ofEntry call.declared) := by
    simp [front, calls, Call.declared, xMade, nMade, blockMade]
  exact ⟨declarations_accounted session made front calls brought, by decide +kernel⟩

end Session
end SymbolTable
