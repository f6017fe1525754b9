import SymbolTable.Proofs.Cursor.Effect

/-!
Traversals. A traversal of a scope starts with a reset and goes on for as long as
nothing puts the scope's cursor back or shows the scope's bindings; what else is
done to the tree meanwhile is free. The invariant of such a run is that the
cursor counts the entries yielded, so that the next one is the first that the
traversal has not yielded yet, whenever it was bound.
-/
namespace SymbolTable

/-- Whether an operation puts back the cursor of the scope at `target` or runs it
to its end. -/
def Operation.Disturbs (tree : Tree) (target : List String) : Operation → Prop
  | .at path act =>
      (act = .reset ∧ path = target) ∨
        ∃ scope, tree.scopeAt? path = some scope ∧ act.Runs scope ∧ tree.Reaches path target
  | _ => False

def Tree.Undisturbed (target : List String) (tree : Tree) : List Operation → Prop
  | [] => True
  | operation :: rest =>
      ¬ operation.Disturbs tree target ∧ Undisturbed target (tree.perform operation).2 rest

/-- No reset of the scope at `target`, and no rendering of it or of a scope on the
way to it. -/
def Operation.Spares (target : List String) : Operation → Prop
  | .at path .reset => path ≠ target
  | .at path .render => ¬ path <+: target
  | .at path .renderBindings => ¬ path <+: target
  | _ => True

def Operation.yielded? (target : List String) : Operation → Answer → Option Entry
  | .at path .next, .yielded (.ok entry) => if path = target then some entry else none
  | _, _ => none

def Tree.yields (target : List String) (tree : Tree) : List Operation → List Entry
  | [] => []
  | operation :: rest =>
      (operation.yielded? target (tree.perform operation).1).toList ++
        yields target (tree.perform operation).2 rest

theorem Operation.Spares.calm {target : List String} {operation : Operation}
    (spares : operation.Spares target) (tree : Tree) : ¬ operation.Disturbs tree target := by
  cases operation with
  | bindParameter parameter | addParameter parameter => exact id
  | declareParameter parameter span => exact id
  | extend super => exact id
  | «at» path act =>
      rintro (⟨resets, here⟩ | ⟨scope, _, runs, _, rest, _, reached, _⟩)
      · subst resets
        exact spares here
      · have front : path <+: target := ⟨rest, reached.symm⟩
        cases act with
        | render | renderBindings => exact spares front
        | bind name entry | add name entry => exact runs
        | declare entry span => exact runs
        | reset | next => exact runs
        | layout options classes? => exact runs

theorem Tree.undisturbed_of_spared (target : List String) (tree : Tree)
    (operations : List Operation) (spared : ∀ operation ∈ operations, operation.Spares target) :
    tree.Undisturbed target operations := by
  induction operations generalizing tree with
  | nil => trivial
  | cons operation rest ih =>
      refine ⟨(spared operation List.mem_cons_self).calm tree, ih _ ?_⟩
      intro other member
      exact spared other (List.mem_cons_of_mem _ member)

theorem Tree.Undisturbed.front {target : List String} {tree : Tree} {front back : List Operation}
    (calm : tree.Undisturbed target (front ++ back)) : tree.Undisturbed target front := by
  induction front generalizing tree with
  | nil => trivial
  | cons operation rest ih => exact ⟨calm.1, ih calm.2⟩

theorem Tree.run_append (tree : Tree) (front back : List Operation) :
    tree.run (front ++ back) = (tree.run front).run back := by
  induction front generalizing tree with
  | nil => rfl
  | cons operation rest ih => exact ih (tree.perform operation).2

namespace Scope

/-- A further binding hides no scope and moves no cursor. -/
theorem cursorAt_push (scope inner : Scope) (owner : Owner) (name : String) (entry : Entry)
    (path : List String) (there : scope.at? path = some inner) :
    cursorAt? ⟨owner, scope.table.push name entry⟩ path = scope.cursorAt? path := by
  cases path with
  | nil => rfl
  | cons step rest =>
      rw [cursorAt?, scope.at_push inner owner name step entry rest there, cursorAt?]

theorem cursorAt_moved (scope : Scope) (cursor : Option Nat) (path : List String)
    (deeper : path ≠ []) :
    cursorAt? ⟨scope.owner, { scope.table with cursor := cursor }⟩ path = scope.cursorAt? path := by
  cases path with
  | nil => contradiction
  | cons step rest => rfl

theorem cursorAt_bind (scope bound inner : Scope) (name : String) (entry : Entry)
    (path : List String) (made : scope.bind name entry = .ok bound)
    (there : scope.at? path = some inner) :
    cursorAt? ⟨scope.owner, bound.table⟩ path = scope.cursorAt? path := by
  obtain ⟨_, _, _, same⟩ := scope.bind_ok bound name entry made
  subst same
  exact scope.cursorAt_push inner scope.owner name entry path there

end Scope

/-- What an act does to a cursor below the scope it works on, and to that of the
scope itself if it is no step and no reset. -/
theorem Act.on_cursor (act : Act) (scope inner : Scope) (sound : scope.WellFormed)
    (path : List String) (there : scope.at? path = some inner)
    (apart : act = .reset ∨ act = .next → path ≠ [])
    (calm : act.Runs scope → scope.viaBlocks path ≠ true) :
    Scope.cursorAt? ⟨scope.owner, (act.on scope).2⟩ path = scope.cursorAt? path := by
  have shown : act.Runs scope →
      Scope.cursorAt? ⟨scope.owner, (act.on scope).2⟩ path = scope.cursorAt? path := by
    intro runs
    rw [act.on_runs scope runs, scope.exhausted_at, if_neg (calm runs)]
  cases act with
  | bind name entry | add name entry =>
      simp only [on]
      split
      · exact scope.cursorAt_bind _ inner name entry path ‹_› there
      · rfl
  | declare entry span =>
      simp only [on, Scope.declare]
      split
      · exact scope.cursorAt_bind _ inner entry.name entry path ‹_› there
      · rfl
  | reset => exact scope.cursorAt_moved (some 0) path (apart (.inl rfl))
  | next =>
      simp only [on]
      split
      · rename_i entry after step
        obtain ⟨position, name, _, _, same⟩ := scope.table.next_ok after scope.name entry step
        subst same
        exact scope.cursorAt_moved _ path (apart (.inr rfl))
      · rfl
  | renderBindings => exact shown trivial
  | render =>
      by_cases runs : Act.render.Runs scope
      · exact shown runs
      · have member : scope.kind.isClassMember := by
          cases kind : scope.kind with
          | «variable» | method | «class» => rfl
          | block => exact absurd (.inr kind) runs
          | program => exact absurd (.inl kind) runs
        rw [Act.on_render_member scope member]
  | layout options classes? => rw [Act.on_layout scope sound options classes?]

section Next
variable (scope : Scope)

theorem Act.next_unstarted (unstarted : scope.table.cursor = none) :
    Act.next.on scope = (.yielded (.error (.notStarted scope.name)), scope.table) := by
  simp only [on, Scope.next, Table.next, unstarted]

variable (position : Nat) (started : scope.table.cursor = some position)
include started

theorem Act.next_yields (name : String) (entry : Entry)
    (bound : scope.table.bindings[position]? = some (name, entry)) :
    Act.next.on scope =
      (.yielded (.ok entry), { scope.table with cursor := some (position + 1) }) := by
  simp only [on, Scope.next, Table.next, started, bound]

theorem Act.next_exhausted (behind : scope.table.bindings[position]? = none) :
    Act.next.on scope = (.yielded (.error (.exhausted scope.name)), scope.table) := by
  simp only [on, Scope.next, Table.next, started, behind]

theorem Table.hasNext_iff : scope.table.hasNext = true ↔ position < scope.table.size := by
  simp [hasNext, started, size]

theorem Act.next_ok_iff :
    scope.table.hasNext = true ↔ ∃ entry, (Act.next.on scope).1 = .yielded (.ok entry) := by
  rw [Table.hasNext_iff scope position started]
  constructor
  · intro inside
    have bound := List.getElem?_eq_getElem (l := scope.table.bindings) inside
    exact ⟨_, by rw [Act.next_yields scope position started _ _ bound]⟩
  · rintro ⟨entry, yielded⟩
    by_cases inside : position < scope.table.size
    · exact inside
    · have behind : scope.table.bindings[position]? = none :=
        List.getElem?_eq_none (Nat.le_of_not_lt inside)
      rw [Act.next_exhausted scope position started behind] at yielded
      cases yielded

end Next

namespace Tree

theorem perform_answer (tree : Tree) (path : List String) (act : Act) (scope : Scope)
    (there : tree.scopeAt? path = some scope) :
    (tree.perform (.at path act)).1 = (act.on scope).1 := by
  obtain ⟨_, _, _, _, _, performed⟩ := tree.perform_at path act scope there
  rw [performed]

theorem cursorAt_here (tree : Tree) (path : List String) (act : Act) (scope : Scope)
    (there : tree.scopeAt? path = some scope) :
    (tree.perform (.at path act)).2.cursorAt? path = some (act.on scope).2.cursor := by
  have below := tree.cursorAt_below path [] act scope there
  rw [List.append_nil] at below
  rw [below]
  rfl

theorem cursorAt_longer (method longer : Method) (parameter : Variable)
    (made : method.addParameter parameter = .ok longer) (target : List String) (scope : Scope)
    (there : (Tree.ofEntry method.entry).scopeAt? target = some scope) :
    (Tree.ofEntry longer.entry).cursorAt? target =
      (Tree.ofEntry method.entry).cursorAt? target := by
  obtain ⟨_, _, _, same⟩ := method.addParameter_ok longer parameter made
  subst same
  have inner : method.scope.at? target = some scope := by
    rw [← scopeAt_scope]
    exact there
  have kept := method.scope.cursorAt_push scope
    (.nested (.method method.name method.returns (method.paramCount + 1)))
    parameter.name (.leaf parameter) target inner
  rw [← cursorAt_scope, ← cursorAt_scope] at kept
  exact kept

theorem cursorAt_extend (self : Class) (super : ClassId) (target : List String) :
    (Tree.ofEntry (self.extend super).entry).cursorAt? target =
      (Tree.ofEntry self.entry).cursorAt? target := by
  have same : (self.extend super).scope.cursorAt? target = self.scope.cursorAt? target := by
    cases target <;> rfl
  rw [← cursorAt_scope, ← cursorAt_scope] at same
  exact same

/-- An operation that is no step of the scope at `target` and does not disturb it
leaves its cursor where it is. -/
theorem perform_cursor (tree : Tree) (sound : tree.WellFormed) (operation : Operation)
    (target : List String) (scope : Scope) (there : tree.scopeAt? target = some scope)
    (calm : ¬ operation.Disturbs tree target) (other : operation ≠ .at target .next) :
    (tree.perform operation).2.cursorAt? target = tree.cursorAt? target := by
  cases operation with
  | «at» path act =>
      by_cases below : path <+: target
      · obtain ⟨rest, same⟩ := below
        subst same
        cases outer : tree.scopeAt? path with
        | none => rw [tree.perform_nowhere path act outer]
        | some middle =>
            rw [tree.cursorAt_below path rest act middle outer,
              tree.cursorAt_append path rest middle outer]
            rw [tree.scopeAt_append path rest middle outer] at there
            apply act.on_cursor middle scope (sound.scopeAt path middle outer) rest there
            · rintro (resets | steps) here
              · exact calm (.inl ⟨resets, by rw [here, List.append_nil]⟩)
              · exact other (by rw [steps, here, List.append_nil])
            · intro runs opened
              exact calm (.inr ⟨middle, outer, runs, middle, rest, outer, rfl, opened⟩)
      · exact tree.perform_elsewhere path target act below
  | bindParameter parameter | addParameter parameter =>
      simp only [perform]
      split
      · rfl
      · rename_i method found
        have same := tree.method_some method found
        subst same
        split
        · exact cursorAt_longer method _ parameter ‹_› target scope there
        · rfl
  | declareParameter parameter span =>
      simp only [perform, Method.declareParameter]
      split
      · rfl
      · rename_i method found
        have same := tree.method_some method found
        subst same
        split
        · exact cursorAt_longer method _ parameter ‹_› target scope there
        · rfl
  | extend super =>
      simp only [perform]
      split
      · rfl
      · rename_i self found
        rw [tree.class_some self found]
        exact cursorAt_extend self super target

theorem yielded_other (target : List String) (operation : Operation) (answer : Answer)
    (other : operation ≠ .at target .next) : operation.yielded? target answer = none := by
  unfold Operation.yielded?
  split
  · rename_i path entry
    have apart : path ≠ target := fun same => other (by rw [same])
    rw [if_neg apart]
  · rfl

/-- The step lemma: the cursor moves on by the entry that is yielded, if one is. -/
theorem step_cursor (tree : Tree) (sound : tree.WellFormed) (operation : Operation)
    (target : List String) (cursor : Option Nat) (stands : tree.cursorAt? target = some cursor)
    (calm : ¬ operation.Disturbs tree target) :
    (tree.perform operation).2.cursorAt? target =
      some (cursor.map
        (· + (operation.yielded? target (tree.perform operation).1).toList.length)) := by
  obtain ⟨scope, there, reads⟩ := Option.map_eq_some_iff.mp stands
  by_cases step : operation = .at target .next
  · subst step
    rw [tree.cursorAt_here target .next scope there, tree.perform_answer target .next scope there]
    cases cursor with
    | none =>
        rw [Act.next_unstarted scope reads, reads]
        rfl
    | some position =>
        cases bound : scope.table.bindings[position]? with
        | none =>
            rw [Act.next_exhausted scope position reads bound, reads]
            rfl
        | some binding =>
            rw [Act.next_yields scope position reads binding.1 binding.2 bound]
            simp [Operation.yielded?]
  · rw [tree.perform_cursor sound operation target scope there calm step, stands,
      yielded_other target operation _ step]
    simp

/-- The run lemma: the cursor counts the entries yielded since it was started. -/
theorem run_cursor (tree : Tree) (obtained : Obtainable tree) (operations : List Operation)
    (made : ∀ operation ∈ operations, ∀ entry, operation.brought? = some entry →
      Obtainable (.ofEntry entry))
    (target : List String) (cursor : Option Nat) (stands : tree.cursorAt? target = some cursor)
    (calm : tree.Undisturbed target operations) :
    (tree.run operations).cursorAt? target =
      some (cursor.map (· + (tree.yields target operations).length)) := by
  induction operations generalizing tree cursor with
  | nil => simpa [run, yields] using stands
  | cons operation rest ih =>
      have first := tree.step_cursor obtained.wellFormed operation target cursor stands calm.1
      have next := Obtainable.step operation obtained (made operation List.mem_cons_self)
      have others := ih (tree.perform operation).2 next
        (fun other member => made other (List.mem_cons_of_mem _ member)) _ first calm.2
      rw [run, others, yields, List.length_append]
      cases cursor with
      | none => rfl
      | some position => simp [Nat.add_assoc]

/-- Every entry yielded was yielded by a step of the run. -/
theorem yields_split (tree : Tree) (target : List String) (operations : List Operation)
    (count : Nat) (entry : Entry) (yielded : (tree.yields target operations)[count]? = some entry) :
    ∃ front back, operations = front ++ .at target .next :: back ∧
      (tree.yields target front).length = count ∧
      ((tree.run front).perform (.at target .next)).1 = .yielded (.ok entry) := by
  induction operations generalizing tree count with
  | nil => cases yielded
  | cons operation rest ih =>
      have onward : ∀ count, ((tree.perform operation).2.yields target rest)[count]? = some entry →
          ∃ front back, operation :: rest = front ++ .at target .next :: back ∧
            (tree.yields target front).length =
              (operation.yielded? target (tree.perform operation).1).toList.length + count ∧
            ((tree.run front).perform (.at target .next)).1 = .yielded (.ok entry) := by
        intro count later
        obtain ⟨front, back, split, counted, answer⟩ := ih (tree.perform operation).2 count later
        exact ⟨operation :: front, back, by rw [split, List.cons_append],
          by rw [yields, List.length_append, counted], answer⟩
      rw [yields] at yielded
      cases first : operation.yielded? target (tree.perform operation).1 with
      | none =>
          rw [first] at yielded onward
          simpa using onward count yielded
      | some found =>
          rw [first] at yielded onward
          cases count with
          | succ count => simpa [Nat.add_comm] using onward count yielded
          | zero =>
              have same : found = entry := by simpa using yielded
              subst same
              unfold Operation.yielded? at first
              split at first
              · rename_i path entry answer
                split at first
                · rename_i here
                  cases first
                  subst here
                  exact ⟨[], rest, rfl, rfl, answer⟩
                · cases first
              · cases first

end Tree

/-- How a traversal of the scope at `target` stands that `start` began, with
`scope` as it is after the run. -/
structure Tree.Traversed (start : Tree) (target : List String) (operations : List Operation)
    (scope : Scope) : Prop where
  /-- What was yielded when `position` entries had been is the entry bound at that
  position then, and the same binding is there now. -/
  order : ∀ (position : Nat) entry, (start.yields target operations)[position]? = some entry →
    ∃ front back moment name kept, operations = front ++ .at target .next :: back ∧
      (start.yields target front).length = position ∧
      (start.run front).scopeAt? target = some moment ∧
      moment.table.bindings[position]? = some (name, entry) ∧
      scope.table.bindings[position]? = some (name, kept) ∧ entry.Grown kept
  pending : scope.table.hasNext = true ↔
    (start.yields target operations).length < scope.table.size
  steps : scope.table.hasNext = true ↔
    ∃ entry, ((start.run operations).perform (.at target .next)).1 = .yielded (.ok entry)
  next : ∀ name entry,
    scope.table.bindings[(start.yields target operations).length]? = some (name, entry) →
      ((start.run operations).perform (.at target .next)).1 = .yielded (.ok entry)
  exhausted : scope.table.hasNext = false →
    (start.run operations).perform (.at target .next) =
      (.yielded (.error (.exhausted scope.name)), start.run operations)

theorem Tree.perform_kept (tree : Tree) (path : List String) (act : Act) (scope : Scope)
    (answer : Answer) (there : tree.scopeAt? path = some scope)
    (idle : act.on scope = (answer, scope.table)) :
    tree.perform (.at path act) = (answer, tree) := by
  have answered := tree.perform_answer path act scope there
  have kept := tree.perform_same path act scope there (congrArg Prod.snd idle)
  rw [idle] at answered
  exact Prod.ext answered kept

/-- If the cursor counts at every moment of a run, an entry comes from the position
of its count, and what is bound there at the end has grown from it. -/
theorem Tree.yields_bound (start : Tree) (target : List String) (operations : List Operation)
    (counted : ∀ front back, operations = front ++ back → ∃ moment,
      (start.run front).scopeAt? target = some moment ∧
        moment.table.cursor = some (start.yields target front).length)
    (later : Scope) (there : (start.run operations).scopeAt? target = some later)
    (position : Nat) (entry : Entry)
    (yielded : (start.yields target operations)[position]? = some entry) :
    ∃ front back moment name kept, operations = front ++ .at target .next :: back ∧
      (start.yields target front).length = position ∧
      (start.run front).scopeAt? target = some moment ∧
      moment.table.bindings[position]? = some (name, entry) ∧
      later.table.bindings[position]? = some (name, kept) ∧ entry.Grown kept := by
  obtain ⟨front, back, split, count, answer⟩ :=
    start.yields_split target operations position entry yielded
  obtain ⟨moment, here, reads⟩ := counted front (.at target .next :: back) split
  rw [Tree.perform_answer _ target .next moment here] at answer
  rw [count] at reads
  -- The step of that moment was taken with the cursor at `position`.
  cases bound : moment.table.bindings[position]? with
  | none =>
      rw [Act.next_exhausted moment position reads bound] at answer
      cases answer
  | some binding =>
      rw [Act.next_yields moment position reads binding.1 binding.2 bound] at answer
      cases answer
      have grown := (start.run front).run_grown (.at target .next :: back)
      rw [← Tree.run_append, ← split] at grown
      obtain ⟨later', there', _, _, more⟩ := grown.scopeAt target moment here
      rw [there] at there'
      cases there'
      obtain ⟨kept, still, inner⟩ := more.position position binding.1 binding.2 bound
      exact ⟨front, back, moment, binding.1, kept, split, count, here, bound, still, inner⟩

/-- A scope whose cursor counts what a run has yielded stands as a traversal
does. -/
theorem Tree.traversed_of_cursor (start : Tree) (obtained : Obtainable start) (target : List String)
    (operations : List Operation)
    (made : ∀ operation ∈ operations, ∀ entry, operation.brought? = some entry →
      Obtainable (.ofEntry entry))
    (stands : start.cursorAt? target = some (some 0)) (calm : start.Undisturbed target operations) :
    ∃ later, (start.run operations).scopeAt? target = some later ∧
      start.Traversed target operations later := by
  have counted : ∀ front back, operations = front ++ back → ∃ scope,
      (start.run front).scopeAt? target = some scope ∧
        scope.table.cursor = some (start.yields target front).length := by
    intro front back split
    subst split
    have cursor := start.run_cursor obtained front
      (fun operation member => made operation (List.mem_append_left _ member)) target (some 0)
      stands calm.front
    rw [Option.map_some, Nat.zero_add] at cursor
    exact Option.map_eq_some_iff.mp cursor
  obtain ⟨later, there, started⟩ := counted operations [] (List.append_nil _).symm
  refine ⟨later, there, ?_, ?_, ?_, ?_, ?_⟩
  · exact start.yields_bound target operations counted later there
  · exact Table.hasNext_iff later _ started
  · rw [Tree.perform_answer _ target .next later there]
    exact Act.next_ok_iff later _ started
  · intro name entry bound
    rw [Tree.perform_answer _ target .next later there,
      Act.next_yields later _ started name entry bound]
  · intro done
    have behind : later.table.bindings[(start.yields target operations).length]? = none := by
      apply List.getElem?_eq_none
      apply Nat.le_of_not_lt
      intro inside
      rw [(Table.hasNext_iff later _ started).mpr inside] at done
      cases done
    exact (start.run operations).perform_kept target .next later _ there
      (Act.next_exhausted later _ started behind)

/-- A traversal misses nothing and repeats nothing, whatever else is done to the
tree: after a reset the entries come in the order of binding, one for each step
that succeeds; a step succeeds as long as some binding was not yielded, and
otherwise leaves everything as it is. A scope that was never reset or rendered
yields nothing. -/
theorem traversal_exact (tree : Tree) (obtained : Obtainable tree) (target : List String)
    (scope : Scope) (there : tree.scopeAt? target = some scope) (operations : List Operation)
    (made : ∀ operation ∈ operations, ∀ entry, operation.brought? = some entry →
      Obtainable (.ofEntry entry)) :
    (let start := (tree.perform (.at target .reset)).2;
      start.Undisturbed target operations →
        ∃ later, (start.run operations).scopeAt? target = some later ∧
          start.Traversed target operations later) ∧
      (scope.table.cursor = none → tree.Undisturbed target operations →
        ∃ later, (tree.run operations).scopeAt? target = some later ∧
          later.table.hasNext = false ∧
          (tree.run operations).perform (.at target .next) =
            (.yielded (.error (.notStarted later.name)), tree.run operations)) := by
  constructor
  · intro start calm
    have again : Obtainable start := .step (.at target .reset) obtained nofun
    have stands : start.cursorAt? target = some (some 0) :=
      tree.cursorAt_here target .reset scope there
    exact start.traversed_of_cursor again target operations made stands calm
  · intro unstarted calm
    have stands : tree.cursorAt? target = some none := by
      rw [Tree.cursorAt?, there, Option.map_some, unstarted]
    have kept := tree.run_cursor obtained operations made target none stands calm
    obtain ⟨later, here, reads⟩ := Option.map_eq_some_iff.mp kept
    have idle : later.table.cursor = none := reads
    refine ⟨later, here, ?_, ?_⟩
    · rw [Table.hasNext, idle]
    · exact (tree.run operations).perform_kept target .next later _ here
        (Act.next_unstarted later idle)

/-- A block is traversed to its end while an inner block is bound in it, filled and
rendered and a name is offered again; what is bound then is yielded next. Without
the reset before it the same run yields nothing. -/
theorem traversal_exact_interleaved :
    let x : Entry := .leaf ⟨"x", .int⟩
    let y : Entry := .leaf ⟨"y", .float⟩
    let inner : Entry := .scope (.block "block#1") .empty
    let tree := Tree.run (.program "Main" .empty)
      [.at [] (.bind "b" (.scope (.block "block#0") .empty)), .at ["b"] (.bind "x" x)]
    let operations : List Operation :=
      [.at ["b"] .next, .at ["b"] (.bind "c" inner), .at ["b", "c"] (.bind "y" y),
        .at ["b", "c"] .render, .at ["b"] .next, .at ["b"] .next, .at ["b"] (.bind "x" y),
        .at ["b"] (.bind "y" y), .at ["b"] .next]
    let start := (tree.perform (.at ["b"] .reset)).2
    Obtainable tree ∧ (∀ operation ∈ operations, operation.Spares ["b"]) ∧
      start.yields ["b"] operations =
        [x, .scope (.block "block#1") ⟨[("y", y)], some 1⟩, y] ∧
      (∃ later, (start.run operations).scopeAt? ["b"] = some later ∧
        start.Traversed ["b"] operations later) ∧
      ∃ later, (tree.run operations).scopeAt? ["b"] = some later ∧ later.table.hasNext = false ∧
        (tree.run operations).perform (.at ["b"] .next) =
          (.yielded (.error (.notStarted later.name)), tree.run operations) := by
  intro x y inner tree operations start
  have xMade : Obtainable (.ofEntry x) := @Obtainable.variable "x" .int ⟨"x", .int⟩ rfl
  have yMade : Obtainable (.ofEntry y) := @Obtainable.variable "y" .float ⟨"y", .float⟩ rfl
  have blockMade : Obtainable (.ofEntry (.scope (.block "block#0") .empty)) :=
    @Obtainable.block "block#0" ⟨.nested (.block "block#0"), .empty⟩ rfl
  have innerMade : Obtainable (.ofEntry inner) :=
    @Obtainable.block "block#1" ⟨.nested (.block "block#1"), .empty⟩ rfl
  have obtained : Obtainable tree :=
    (@Obtainable.program "Main" ⟨.program "Main", .empty⟩ rfl).run _
      (by simp [Operation.brought?, Act.brought?, xMade, blockMade])
  have spared : ∀ operation ∈ operations, operation.Spares ["b"] := by
    simp [operations, Operation.Spares]
  have made : ∀ operation ∈ operations, ∀ entry, operation.brought? = some entry →
      Obtainable (.ofEntry entry) := by
    simp [operations, Operation.brought?, Act.brought?, yMade, innerMade]
  obtain ⟨started, unstarted⟩ := traversal_exact tree obtained ["b"] _ rfl operations made
  -- Rendering recurses on what is ahead of a cursor, so the run reduces only with
  -- such definitions open.
  have yielded : start.yields ["b"] operations =
      [x, .scope (.block "block#1") ⟨[("y", y)], some 1⟩, y] := by
    with_unfolding_all rfl
  exact ⟨obtained, spared, yielded,
    started (start.undisturbed_of_spared ["b"] operations spared),
    unstarted rfl (tree.undisturbed_of_spared ["b"] operations spared)⟩

end SymbolTable
