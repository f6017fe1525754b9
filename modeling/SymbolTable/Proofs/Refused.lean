import SymbolTable.Proofs.Cursor.Traversal

/-!
Refused operations. Whatever refuses an operation — a name, a kind, a cursor, a
path that leads to no scope — leaves the whole tree as it was, with its cursors
and its counts. So a run loses nothing with the operations that it refused: the
others are answered as before, and it ends in the same tree.
-/
namespace SymbolTable

def Answer.refused : Answer → Bool
  | .bound refusal? => refusal?.isSome
  | .truth made => !made
  | .declared made _ => !made
  | .yielded (.error _) => true
  | .unreachable _ | .notAClass | .notAMethod => true
  | .yielded (.ok _) | .text _ | .done => false

namespace Tree

def answers (tree : Tree) : List Operation → List Answer
  | [] => []
  | operation :: rest => (tree.perform operation).1 :: (tree.perform operation).2.answers rest

def accepted (tree : Tree) (operations : List Operation) : List Operation :=
  ((operations.zip (tree.answers operations)).filter fun done => !done.2.refused).map Prod.fst

end Tree

/-- Atomicity in one scope. -/
theorem Act.on_refused (act : Act) (scope : Scope) (refused : (act.on scope).1.refused = true) :
    (act.on scope).2 = scope.table := by
  cases act with
  | bind name entry | add name entry =>
      simp only [on] at refused ⊢
      split
      · rename_i bound made
        simp [made, Answer.refused] at refused
      · rfl
  | declare entry span =>
      simp only [on, Scope.declare] at refused ⊢
      split
      · rename_i bound made
        simp [made, Answer.refused] at refused
      · rfl
  | next =>
      simp only [on] at refused ⊢
      split
      · rename_i entry after step
        simp [step, Answer.refused] at refused
      · rfl
  | reset => cases refused
  | render => simp [on, Tree.render_eq, Answer.refused] at refused
  | renderBindings => simp [on, Scope.renderBindings_eq, Answer.refused] at refused
  | layout options classes? =>
      simp only [on] at refused ⊢
      split
      · rfl
      · rename_i self owned
        split
        · rename_i text laid written
          simp [owned, written, Answer.refused] at refused
        · rfl

namespace Tree

/-- Atomicity in the whole tree. -/
theorem perform_refused (tree : Tree) (operation : Operation)
    (refused : (tree.perform operation).1.refused = true) :
    (tree.perform operation).2 = tree := by
  cases operation with
  | «at» path act =>
      cases there : tree.scopeAt? path with
      | none => exact tree.perform_nowhere path act there
      | some target =>
          rw [tree.perform_answer path act target there] at refused
          exact tree.perform_same path act target there (act.on_refused target refused)
  | bindParameter parameter | addParameter parameter =>
      simp only [perform] at refused ⊢
      split
      · rfl
      · rename_i method found
        split
        · rename_i longer made
          simp [found, made, Answer.refused] at refused
        · rfl
  | declareParameter parameter span =>
      simp only [perform, Method.declareParameter] at refused ⊢
      split
      · rfl
      · rename_i method found
        split
        · rename_i longer made
          simp [found, made, Answer.refused] at refused
        · exact (tree.method_some method found).symm
  | extend super =>
      simp only [perform] at refused ⊢
      split
      · rfl
      · rename_i self found
        simp [found, Answer.refused] at refused

theorem accepted_cons (tree : Tree) (operation : Operation) (rest : List Operation) :
    tree.accepted (operation :: rest) =
      (if (tree.perform operation).1.refused then [] else [operation]) ++
        (tree.perform operation).2.accepted rest := by
  cases answer : (tree.perform operation).1.refused <;> simp [accepted, answers, answer]

end Tree

/-- Refused operations are no part of a run: without them every other operation is
answered as it was with them, and the run ends in the same tree. -/
theorem refused_operations_vanish (tree : Tree) (operations : List Operation) :
    tree.answers (tree.accepted operations) =
        (tree.answers operations).filter (fun answer => !answer.refused) ∧
      tree.run (tree.accepted operations) = tree.run operations := by
  induction operations generalizing tree with
  | nil => exact ⟨rfl, rfl⟩
  | cons operation rest ih =>
      obtain ⟨answered, ended⟩ := ih (tree.perform operation).2
      rw [tree.accepted_cons]
      by_cases refused : (tree.perform operation).1.refused = true
      · -- The rest of the run starts from the same tree.
        rw [tree.perform_refused operation refused] at answered ended
        simp [Tree.answers, Tree.run, tree.perform_refused operation refused, refused, answered,
          ended]
      · simp [Tree.answers, Tree.run, refused, answered, ended]

end SymbolTable
