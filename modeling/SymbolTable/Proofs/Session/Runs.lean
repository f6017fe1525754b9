import SymbolTable.Proofs.Session.Scopes

/-!
Calls in a row. Whatever a run of calls is, a scope that was there before it binds
what it bound then and, behind that, what the calls on it brought that were taken; and
a method holds a body after it if it held one before or an entry to it was taken.
-/
namespace SymbolTable

theorem Slots.lookup_put (slots : Slots) (slot other : String) (tree : Tree) :
    (slots.put slot tree).lookup other = if other = slot then some tree else slots.lookup other := by
  rw [put, List.lookup_cons]
  by_cases here : other = slot
  · simp [here]
  · have differs : (other == slot) = false := beq_eq_false_iff_ne.mpr here
    rw [if_neg here, differs]
    simp only
    induction slots with
    | nil => rfl
    | cons filled rest ih =>
        rw [List.filter_cons]
        by_cases same : filled.1 = slot
        · have apart : (other == filled.1) = false := beq_eq_false_iff_ne.mpr (same ▸ here)
          rw [if_neg (by simp [same]), ih, List.lookup_cons, apart]
        · rw [if_pos (by simp [same]), List.lookup_cons, List.lookup_cons, ih]

namespace Call

def taken : Except Problem Reply → Bool
  | .ok (.truth made) => made
  | _ => false

def bindingsAt (place : Place) (calls : List Call) : List (String × Entry) :=
  (calls.filter fun call => call.place = place).map binding

theorem bindingsAt_append (place : Place) (front back : List Call) :
    bindingsAt place (front ++ back) = bindingsAt place front ++ bindingsAt place back := by
  rw [bindingsAt, List.filter_append, List.map_append, bindingsAt, bindingsAt]

theorem bindingsAt_one (place : Place) (call : Call) :
    bindingsAt place [call] = if call.place = place then [call.binding] else [] := by
  by_cases here : call.place = place <;> simp [bindingsAt, here]

end Call

namespace Session

def scopeAt? (session : Session) (place : Place) : Option Scope :=
  (session.slots.lookup place.slot).bind fun tree => tree.scopeAt? place.path

def methodAt? (session : Session) (slot : String) : Option Method :=
  (session.slots.lookup slot).bind Tree.method?

/-- A session that holds nothing but trees that can be made. -/
def Made (session : Session) : Prop :=
  ∀ slot tree, session.slots.lookup slot = some tree → Obtainable tree

def after (session : Session) : List Call → Session
  | [] => session
  | call :: rest => (session.call call).2.after rest

theorem after_append (session : Session) (front back : List Call) :
    session.after (front ++ back) = (session.after front).after back := by
  induction front generalizing session with
  | nil => rfl
  | cons call rest ih => exact ih (session.call call).2

/-- What is read off the session at each call as it comes. -/
def along {Reading : Type} (read : Session → Call → Reading) (session : Session) :
    List Call → List Reading
  | [] => []
  | call :: rest => read session call :: (session.call call).2.along read rest

def replies (session : Session) : List Call → List (Except Problem Reply) :=
  session.along fun now call => (now.call call).1

def accepted (session : Session) (calls : List Call) : List Call :=
  ((calls.zip (session.replies calls)).filter fun answered => Call.taken answered.2).map Prod.fst

theorem accepted_cons (session : Session) (call : Call) (rest : List Call) :
    session.accepted (call :: rest) =
      (if Call.taken (session.call call).1 then [call] else []) ++
        (session.call call).2.accepted rest := by
  cases answer : Call.taken (session.call call).1 <;>
    simp [accepted, replies, along, answer]

theorem along_length {Reading : Type} (read : Session → Call → Reading) (session : Session)
    (calls : List Call) : (session.along read calls).length = calls.length := by
  induction calls generalizing session with
  | nil => rfl
  | cons call rest ih => rw [along, List.length_cons, ih, List.length_cons]

/-- A call is answered by the session that the calls before it have left. -/
theorem along_at {Reading : Type} (read : Session → Call → Reading) (session : Session)
    (calls : List Call) (position : Nat) :
    (session.along read calls)[position]? =
      calls[position]?.map (read (session.after (calls.take position))) := by
  induction calls generalizing session position with
  | nil => rfl
  | cons call rest ih =>
      cases position with
      | zero => rfl
      | succ position => simpa [along, after] using ih _ position

section Step
variable {session after : Session} {call : Call} {reply : Except Problem Reply}

/-- Only the tree that takes a call changes. -/
theorem Called.slots (called : session.Called call reply after) (slot : String) :
    (after.slots.lookup slot = session.slots.lookup slot ∧
      (Call.taken reply = true → call.place.slot ≠ slot)) ∨
      ∃ tree bound, session.slots.lookup slot = some tree ∧ call.place.slot = slot ∧
        tree.verdict? call = some (.ok bound) ∧ Call.taken reply = true ∧
        after.slots.lookup slot = some (tree.perform call.operation).2 := by
  cases called with
  | astray => exact .inl ⟨rfl, nofun⟩
  | @taken tree bound filled verdict =>
      by_cases here : call.place.slot = slot
      · subst here
        refine .inr ⟨tree, bound, filled, rfl, verdict, rfl, ?_⟩
        rw [Slots.lookup_put, if_pos rfl]
      · rw [Slots.lookup_put, if_neg (Ne.symm here)]
        exact .inl ⟨rfl, fun _ => here⟩
  | @refused tree refusal filled verdict =>
      refine .inl ⟨?_, nofun⟩
      rw [Slots.lookup_put]
      by_cases here : slot = call.place.slot
      · rw [if_pos here, here, filled]
      · rw [if_neg here]

theorem Called.made (called : session.Called call reply after) (made : session.Made)
    (brought : Obtainable (.ofEntry call.declared)) : after.Made := by
  intro slot tree filled
  rcases called.slots slot with ⟨same, _⟩ | ⟨before, _, held, _, _, _, changed⟩
  · exact made slot tree (same ▸ filled)
  · rw [changed] at filled
    cases filled
    refine .step call.operation (made slot before held) ?_
    intro entry brings
    cases call <;> cases brings <;> exact brought

/-- The step lemma for a scope. -/
theorem Called.scope (called : session.Called call reply after) (place : Place) (scope : Scope)
    (there : session.scopeAt? place = some scope) :
    ∃ later, after.scopeAt? place = some later ∧
      scope.Longer later (if Call.taken reply then Call.bindingsAt place [call] else []) := by
  rw [Call.bindingsAt_one]
  rcases called.slots place.slot with ⟨same, apart⟩ | ⟨tree, bound, held, slot, verdict, taken, left⟩
  · have none : (if Call.taken reply then if call.place = place then [call.binding] else []
        else []) = [] := by
      split
      · rename_i taken
        rw [if_neg fun here => apart taken (congrArg Place.slot here)]
      · rfl
    rw [none]
    refine ⟨scope, ?_, .refl scope⟩
    rw [← there, scopeAt?, same, scopeAt?]
  · rw [scopeAt?, held, Option.bind_some] at there
    rw [if_pos taken, scopeAt?, left, Option.bind_some]
    by_cases path : call.place.path = place.path
    · have here : call.place = place := by
        obtain ⟨_, _⟩ := place
        cases slot
        cases path
        rfl
      subst here
      obtain ⟨target, reached, bound, _, longer⟩ := tree.taken_there call bound verdict
      rw [there] at reached
      cases reached
      rw [if_pos rfl]
      exact ⟨_, bound, longer⟩
    · obtain ⟨later, reads, _, longer⟩ :=
        tree.taken_elsewhere call bound verdict place.path scope there path
      rw [if_neg fun here => path (congrArg Place.path here)]
      exact ⟨later, reads, longer⟩

/-- The step lemma for a method. -/
theorem Called.method (called : session.Called call reply after) (made : session.Made)
    (behind : after.Made) (slot : String) (method : Method)
    (owned : session.methodAt? slot = some method) :
    ∃ later, after.methodAt? slot = some later ∧
      (later.HoldsBody ↔ method.HoldsBody ∨ Call.taken reply = true ∧ call.OpensBody slot) := by
  obtain ⟨tree, filled, found⟩ := Option.bind_eq_some_iff.mp owned
  rcases called.slots slot with ⟨same, apart⟩ | ⟨before, bound, held, here, verdict, taken, left⟩
  · refine ⟨method, by rw [methodAt?, same]; exact owned, .inl, ?_⟩
    rintro (body | ⟨taken, declared, span, atRoot⟩)
    · exact body
    · exact absurd (by rw [atRoot]; rfl) (apart taken)
  · rw [held] at filled
    cases filled
    have whole := tree.method_some method found
    subst whole
    subst here
    obtain ⟨later, whole, holds⟩ := Tree.taken_method method call bound _
      (made _ _ held).wellFormed (behind _ _ left).wellFormed rfl verdict
    refine ⟨later, ?_, by simpa [taken] using holds⟩
    rw [methodAt?, left, Option.bind_some, whole]
    rfl

end Step

theorem after_made (session : Session) (made : session.Made) (calls : List Call)
    (brought : ∀ call ∈ calls, Obtainable (.ofEntry call.declared)) : (session.after calls).Made := by
  induction calls generalizing session with
  | nil => exact made
  | cons call rest ih =>
      rw [List.forall_mem_cons] at brought
      exact ih _ ((session.call_called call).made made brought.1) brought.2

/-- The run lemma for a scope. -/
theorem after_scope (session : Session) (calls : List Call) (place : Place) (scope : Scope)
    (there : session.scopeAt? place = some scope) :
    ∃ later, (session.after calls).scopeAt? place = some later ∧
      scope.Longer later (Call.bindingsAt place (session.accepted calls)) := by
  induction calls generalizing session scope with
  | nil => exact ⟨scope, there, .refl scope⟩
  | cons call rest ih =>
      obtain ⟨middle, next, first⟩ := (session.call_called call).scope place scope there
      obtain ⟨later, last, behind⟩ := ih _ middle next
      refine ⟨later, last, ?_⟩
      rw [accepted_cons, Call.bindingsAt_append]
      have whole := first.trans behind
      split at whole
      · rwa [if_pos ‹_›]
      · rwa [if_neg ‹_›]

/-- The run lemma for a method. -/
theorem after_method (session : Session) (made : session.Made) (calls : List Call)
    (brought : ∀ call ∈ calls, Obtainable (.ofEntry call.declared)) (slot : String)
    (method : Method) (owned : session.methodAt? slot = some method) :
    ∃ later, (session.after calls).methodAt? slot = some later ∧
      (later.HoldsBody ↔ method.HoldsBody ∨
        ∃ call ∈ session.accepted calls, call.OpensBody slot) := by
  induction calls generalizing session method with
  | nil => exact ⟨method, owned, by simp [accepted]⟩
  | cons call rest ih =>
      rw [List.forall_mem_cons] at brought
      have called := session.call_called call
      have between := called.made made brought.1
      obtain ⟨middle, next, first⟩ := called.method made between slot method owned
      obtain ⟨later, last, behind⟩ := ih _ between brought.2 middle next
      refine ⟨later, last, ?_⟩
      rw [behind, first, accepted_cons, or_assoc]
      cases Call.taken (session.call call).1 <;> simp

end Session
end SymbolTable
