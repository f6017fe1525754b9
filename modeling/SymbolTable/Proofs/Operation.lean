import SymbolTable.Entry.Binding
import SymbolTable.Entry.Path
import SymbolTable.Proofs.Table
import SymbolTable.Proofs.Rendering

/-!
The operations that can change a tree, as data, and the trees they can make.
An act works on one scope, which a path of names leads to; parameters and a
superclass are given to the root alone, since no path hands out a method or a
class as such. Questions change nothing and are left out.
-/
namespace SymbolTable

inductive Act where
  | bind (name : String) (entry : Entry)
  /-- The same with a truth value as the answer. -/
  | add (name : String) (entry : Entry)
  | declare (entry : Entry) (span : Span)
  | reset
  | next
  | render
  | renderBindings
  | layout (options : RenderOptions) (classes? : Option ClassRegistry)

inductive Operation where
  | at (path : List String) (act : Act)
  | bindParameter (parameter : Variable)
  | addParameter (parameter : Variable)
  | declareParameter (parameter : Variable) (span : Span)
  | extend (super : ClassId)

inductive Answer where
  | bound (refusal? : Option Refusal)
  | truth (made : Bool)
  | declared (made : Bool) (reported : Diagnostics)
  | yielded (result : Except IterationError Entry)
  | text (result : Except Fault String)
  | done
  | unreachable (error : PathError)
  | notAClass
  | notAMethod

def Scope.asClass? (scope : Scope) : Option Class :=
  scope.tree.member?.bind Entry.class?

def Tree.method? (tree : Tree) : Option Method :=
  tree.member?.bind Entry.method?

def Tree.class? (tree : Tree) : Option Class :=
  tree.member?.bind Entry.class?

def Act.on (act : Act) (scope : Scope) : Answer × Table Entry :=
  match act with
  | .bind name entry =>
      match scope.bind name entry with
      | .ok bound => (.bound none, bound.table)
      | .error refusal => (.bound (some refusal), scope.table)
  | .add name entry =>
      match scope.bind name entry with
      | .ok bound => (.truth true, bound.table)
      | .error _ => (.truth false, scope.table)
  | .declare entry span =>
      let (made, scope, reported) := scope.declare entry span .empty
      (.declared made reported, scope.table)
  | .reset => (.done, scope.table.reset)
  | .next =>
      match scope.next with
      | .ok (entry, table) => (.yielded (.ok entry), table)
      | .error error => (.yielded (.error error), scope.table)
  | .render =>
      match scope.tree.render with
      | .ok (text, tree) => (.text (.ok text), tree.table)
      | .error fault => (.text (.error fault), scope.table)
  | .renderBindings =>
      match scope.renderBindings with
      | .ok (text, table) => (.text (.ok text), table)
      | .error fault => (.text (.error fault), scope.table)
  | .layout options classes? =>
      match scope.asClass? with
      | none => (.notAClass, scope.table)
      | some self =>
          match self.layout options classes? with
          | .ok (text, self) => (.text (.ok text), self.table)
          | .error fault => (.text (.error fault), scope.table)

def Act.brought? : Act → Option Entry
  | .bind _ entry | .add _ entry | .declare entry _ => some entry
  | _ => none

def Operation.brought? : Operation → Option Entry
  | .at _ act => act.brought?
  | .bindParameter declared | .addParameter declared | .declareParameter declared _ =>
      some (.leaf declared)
  | .extend _ => none

def Tree.perform (tree : Tree) : Operation → Answer × Tree
  | .at path act =>
      match tree.edit act.on path with
      | .ok result => result
      | .error error => (.unreachable error, tree)
  | .bindParameter parameter =>
      match tree.method? with
      | none => (.notAMethod, tree)
      | some method =>
          match method.addParameter parameter with
          | .ok longer => (.bound none, .ofEntry longer.entry)
          | .error refusal => (.bound (some refusal), tree)
  | .addParameter parameter =>
      match tree.method? with
      | none => (.notAMethod, tree)
      | some method =>
          match method.addParameter parameter with
          | .ok longer => (.truth true, .ofEntry longer.entry)
          | .error _ => (.truth false, tree)
  | .declareParameter parameter span =>
      match tree.method? with
      | none => (.notAMethod, tree)
      | some method =>
          let (made, method, reported) := method.declareParameter parameter span .empty
          (.declared made reported, .ofEntry method.entry)
  | .extend super =>
      match tree.class? with
      | none => (.notAClass, tree)
      | some self => (.done, .ofEntry (self.extend super).entry)

def Tree.run (tree : Tree) : List Operation → Tree
  | [] => tree
  | operation :: rest => (tree.perform operation).2.run rest

/-- The trees that can be made: fresh ones, copies of what is bound in one, and
whatever operations with such entries turn them into. -/
inductive Obtainable : Tree → Prop where
  | variable {name ty declared} :
      Variable.new name ty = .ok declared → Obtainable (.ofEntry (.leaf declared))
  | method {name returns method} :
      Method.new name returns = .ok method → Obtainable (.ofEntry method.entry)
  | class {name self} : Class.new name = .ok self → Obtainable (.ofEntry self.entry)
  | block {label scope} : Scope.newBlock label = .ok scope → Obtainable scope.tree
  | program {name scope} : Scope.newProgram name = .ok scope → Obtainable scope.tree
  | copy {tree part path} : Obtainable tree → tree.find path = .ok part → Obtainable part
  | step {tree} (operation) : Obtainable tree →
      (∀ entry, operation.brought? = some entry → Obtainable (.ofEntry entry)) →
      Obtainable (tree.perform operation).2

def Tree.scopeAt? (tree : Tree) (path : List String) : Option Scope :=
  match tree.find path with
  | .ok part => part.scope?
  | .error _ => none

theorem Tree.find_cons (tree part : Tree) (name : String) (rest : List String) :
    tree.find (name :: rest) = .ok part ↔ ∃ scope entry, tree.scope? = some scope ∧
      scope.lookup? name = some entry ∧ (Tree.ofEntry entry).find rest = .ok part := by
  rw [find]
  cases owned : tree.scope? with
  | none => simp
  | some scope => cases found : scope.lookup? name <;> simp [found]

theorem Tree.scopeAt_some (tree : Tree) (path : List String) (scope : Scope) :
    tree.scopeAt? path = some scope ↔
      ∃ part, tree.find path = .ok part ∧ part.scope? = some scope := by
  rw [scopeAt?]
  cases tree.find path <;> simp

/-- An entry that is bound stands behind all others, under a name that is not
empty and was free, in a scope that admits its kind. -/
theorem Scope.bind_ok (scope bound : Scope) (name : String) (entry : Entry)
    (made : scope.bind name entry = .ok bound) :
    scope.admits entry.kind ∧ name ≠ "" ∧ scope.lookup? name = none ∧
      bound = { scope with table := scope.table.push name entry } := by
  unfold bind at made
  split at made
  · rename_i admitted
    unfold insert at made
    split at made
    · cases made
    · rename_i named
      split at made
      · cases made
      · rename_i fresh
        cases made
        exact ⟨admitted, named, by simpa [Table.contains, lookup?] using fresh, rfl⟩
  · cases made

/-- Nothing else stands against a binding. -/
theorem Scope.bind_free (scope : Scope) (name : String) (entry : Entry)
    (admitted : scope.admits entry.kind) (named : name ≠ "") (fresh : scope.lookup? name = none) :
    scope.bind name entry = .ok { scope with table := scope.table.push name entry } := by
  have free : scope.table.contains name = false := by
    rw [Table.contains, show scope.table.lookup? name = none from fresh, Option.isSome_none]
  simp [bind, admitted, insert, named, free]

theorem Method.addParameter_ok (method longer : Method) (parameter : Variable)
    (made : method.addParameter parameter = .ok longer) :
    method.table.size ≤ method.paramCount ∧ parameter.name ≠ "" ∧
      method.table.lookup? parameter.name = none ∧
      longer = { method with
        table := method.table.push parameter.name (.leaf parameter)
        paramCount := method.paramCount + 1 } := by
  unfold addParameter at made
  split at made
  · cases made
  · rename_i bodiless
    unfold Scope.insert at made
    split at made
    · cases made
    · rename_i named
      split at made
      · cases made
      · rename_i fresh
        cases made
        exact ⟨by omega, named, by simpa [Table.contains, scope] using fresh, rfl⟩

/-- All that an act can do to the table of a scope. -/
inductive Scope.Change (scope : Scope) (brought? : Option Entry) : Table Entry → Prop where
  | kept : Change scope brought? scope.table
  | bound {name entry after} : brought? = some entry → scope.bind name entry = .ok after →
      Change scope brought? after.table
  | moved {position} : position ≤ scope.table.size →
      Change scope brought? { scope.table with cursor := some position }
  | rendered : Change scope brought? scope.table.exhausted
  | laidOut {options} : scope.kind = .class → Change scope brought? (scope.table.laidOut options)

theorem Scope.next_change (scope : Scope) (brought? : Option Entry) (entry : Entry)
    (after : Table Entry) (step : scope.next = .ok (entry, after)) :
    scope.Change brought? after := by
  obtain ⟨position, name, _, there, same⟩ := scope.table.next_ok after scope.name entry step
  subst same
  exact .moved (List.getElem?_eq_some_iff.mp there).1

theorem Scope.render_change (scope : Scope) (brought? : Option Entry) :
    scope.Change brought? scope.tree.exhausted.table := by
  obtain ⟨owner, table⟩ := scope
  cases owner with
  | program name => exact .rendered
  | nested header =>
      cases header with
      | block label => exact .rendered
      | method name returns paramCount => exact .kept
      | «class» name super? => exact .kept

theorem Scope.layout_change (scope : Scope) (brought? : Option Entry) (self : Class)
    (options : RenderOptions) (owned : scope.asClass? = some self) :
    scope.Change brought? (self.table.laidOut options) := by
  obtain ⟨owner, table⟩ := scope
  cases owner with
  | program name => cases owned
  | nested header =>
      cases header with
      | block label => cases owned
      | method name returns paramCount => cases owned
      | «class» name super? =>
          cases owned
          exact .laidOut rfl

theorem Act.on_change (act : Act) (scope : Scope) :
    scope.Change act.brought? (act.on scope).2 := by
  cases act with
  | bind name entry | add name entry =>
      simp only [on]
      split
      · exact .bound rfl ‹_›
      · exact .kept
  | declare entry span =>
      simp only [on, Scope.declare]
      split
      · exact .bound rfl ‹_›
      · exact .kept
  | reset => exact .moved (Nat.zero_le _)
  | next =>
      simp only [on]
      split
      · exact scope.next_change _ _ _ ‹_›
      · exact .kept
  | render =>
      simp only [on, Tree.render_eq]
      exact scope.render_change _
  | renderBindings =>
      simp only [on, Scope.renderBindings_eq]
      exact .rendered
  | layout options classes? =>
      simp only [on]
      split
      · exact .kept
      · rename_i self owned
        -- A layout that fails has changed nothing.
        split
        · rename_i text laid written
          rw [self.layout_ok options classes? laid text written]
          exact scope.layout_change _ self options owned
        · exact .kept

/-- A change at the end of a path changes, in the scopes on the way, only the
table of the scope that the next name is bound to. -/
theorem Scope.edit_cons {Reply : Type} (change : Scope → Reply × Table Entry)
    (scope after : Scope) (name : String) (rest : List String) (reply : Reply)
    (edited : scope.edit change (name :: rest) = some (reply, after)) :
    ∃ header table inner, scope.lookup? name = some (.scope header table) ∧
      edit change ⟨.nested header, table⟩ rest = some (reply, inner) ∧
      after = { scope with table := scope.table.replace name (.scope header inner.table) } := by
  rw [edit] at edited
  split at edited
  · rename_i header table found
    split at edited
    · rename_i inward inner deeper
      cases edited
      exact ⟨header, table, inner, found, deeper, rfl⟩
    · cases edited
  · cases edited

theorem Scope.edit_owner {Reply : Type} (change : Scope → Reply × Table Entry)
    (scope after : Scope) (path : List String) (reply : Reply)
    (edited : scope.edit change path = some (reply, after)) : after.owner = scope.owner := by
  cases path with
  | nil =>
      cases edited
      rfl
  | cons name rest =>
      obtain ⟨header, table, inner, _, _, same⟩ := edit_cons change scope after name rest reply edited
      rw [same]

inductive Tree.Change (tree : Tree) (brought? : Option Entry) : Tree → Prop where
  | kept : Change tree brought? tree
  | edited {scope after : Scope} {act : Act} {path answer} : tree.scope? = some scope →
      act.brought? = brought? → scope.edit act.on path = some (answer, after) →
      Change tree brought? after.tree
  | longer {method after parameter} : tree = .ofEntry (Method.entry method) →
      brought? = some (.leaf parameter) → method.addParameter parameter = .ok after →
      Change tree brought? (.ofEntry after.entry)
  | extended {self super} : tree = .ofEntry (Class.entry self) →
      Change tree brought? (.ofEntry (self.extend super).entry)

theorem Tree.method_some (tree : Tree) (method : Method) (found : tree.method? = some method) :
    tree = .ofEntry method.entry := by
  cases tree with
  | program name table => cases found
  | ofEntry entry => rw [entry.method_some method found]

theorem Tree.class_some (tree : Tree) (self : Class) (found : tree.class? = some self) :
    tree = .ofEntry self.entry := by
  cases tree with
  | program name table => cases found
  | ofEntry entry => rw [entry.class_some self found]

theorem Tree.perform_change (tree : Tree) (operation : Operation) :
    tree.Change operation.brought? (tree.perform operation).2 := by
  cases operation with
  | «at» path act =>
      simp only [perform, edit]
      split
      · rename_i result edited
        split at edited
        · cases edited
        · rename_i scope owned
          split at edited
          · cases edited
          · cases edited
            exact .edited owned rfl ‹_›
      · exact .kept
  | bindParameter parameter | addParameter parameter =>
      simp only [perform]
      split
      · exact .kept
      · rename_i method found
        split
        · exact .longer (tree.method_some method found) rfl ‹_›
        · exact .kept
  | declareParameter parameter span =>
      simp only [perform, Method.declareParameter]
      split
      · exact .kept
      · rename_i method found
        split
        · exact .longer (tree.method_some method found) rfl ‹_›
        -- A refused parameter gives the method back as it was.
        · rw [← tree.method_some method found]
          exact .kept
  | extend super =>
      simp only [perform]
      split
      · exact .kept
      · rename_i self found
        exact .extended (tree.class_some self found)

theorem Obtainable.run {tree : Tree} (obtained : Obtainable tree) (operations : List Operation)
    (made : ∀ operation ∈ operations, ∀ entry, operation.brought? = some entry →
      Obtainable (.ofEntry entry)) : Obtainable (tree.run operations) := by
  induction operations generalizing tree with
  | nil => exact obtained
  | cons operation rest ih =>
      apply ih (.step operation obtained (made operation List.mem_cons_self))
      intro other inside
      exact made other (List.mem_cons_of_mem _ inside)

end SymbolTable
