import SymbolTable.Class.Layout

/-!
What rendering and layout do to an entry, as plain functions. Rendering a block
runs its cursor to the end, and so those of the blocks in it; nothing else in
the tree moves. A layout runs cursors only where a class holds a block.
-/
namespace SymbolTable

theorem Table.sizeOf_inside (header : Header) (table : Table Entry) (binding : String × Entry)
    (inside : binding ∈ table.bindings) :
    sizeOf binding.2 < sizeOf (Entry.scope header table) := by
  obtain ⟨bindings, cursor⟩ := table
  obtain ⟨name, entry⟩ := binding
  have smaller := List.sizeOf_lt_of_mem inside
  simp at smaller ⊢
  omega

/-- Induction on the tree: a scope may assume the motive of all it binds. -/
@[elab_as_elim, induction_eliminator]
theorem Entry.nested {motive : Entry → Prop} (leaf : ∀ declared, motive (.leaf declared))
    (scope : ∀ header table, (∀ binding ∈ table.bindings, motive binding.2) →
      motive (.scope header table)) : ∀ entry, motive entry
  | .leaf declared => leaf declared
  | .scope header table =>
      scope header table fun binding _ => Entry.nested leaf scope binding.2
termination_by entry => sizeOf entry
decreasing_by exact Table.sizeOf_inside header table binding ‹_›

mutual

/-- The entry with the cursor of every block that rendering reaches at its end. -/
def Entry.exhausted : Entry → Entry
  | .scope (.block label) ⟨bindings, _⟩ =>
      .scope (.block label) ⟨exhaustedAll bindings, some bindings.length⟩
  | entry => entry

def exhaustedAll : List (String × Entry) → List (String × Entry)
  | [] => []
  | (name, entry) :: rest => (name, entry.exhausted) :: exhaustedAll rest

end

def Table.exhausted (table : Table Entry) : Table Entry :=
  ⟨exhaustedAll table.bindings, some table.size⟩

theorem exhaustedAll_eq_map (bindings : List (String × Entry)) :
    exhaustedAll bindings = bindings.map fun binding => (binding.1, binding.2.exhausted) := by
  induction bindings with
  | nil => rfl
  | cons binding rest ih => rw [exhaustedAll, ih, List.map_cons]

theorem Table.mem_exhausted (table : Table Entry) (binding : String × Entry)
    (inside : binding ∈ table.exhausted.bindings) :
    ∃ old ∈ table.bindings, (old.1, old.2.exhausted) = binding := by
  rw [exhausted, exhaustedAll_eq_map] at inside
  exact List.mem_map.mp inside

theorem Entry.exhausted_block (label : String) (table : Table Entry) :
    (Entry.scope (.block label) table).exhausted = .scope (.block label) table.exhausted := rfl

theorem Table.next_here (owner name : String) (entry : Entry)
    (passed rest : List (String × Entry)) :
    Table.next ⟨passed ++ (name, entry) :: rest, some passed.length⟩ owner =
      .ok (entry, ⟨passed ++ (name, entry) :: rest, some (passed.length + 1)⟩) := by
  simp [Table.next]

theorem Table.putBack_here (name : String) (old new : Entry) (passed rest : List (String × Entry)) :
    Table.putBack ⟨passed ++ (name, old) :: rest, some (passed.length + 1)⟩ new =
      ⟨(passed ++ [(name, new)]) ++ rest, some (passed ++ [(name, new)]).length⟩ := by
  have reached := List.modifyTailIdx_add (List.modifyHead fun binding => (binding.1, new)) 0
    passed ((name, old) :: rest)
  simpa [Table.putBack, List.modify] using reached

/-- The loop invariant: what the cursor has passed is rendered already, what is
ahead is as it was. -/
theorem renderAhead_eq (owner : String) (passed ahead : List (String × Entry))
    (each : ∀ binding ∈ ahead, binding.2.render = .ok (binding.2.text, binding.2.exhausted)) :
    renderAhead owner ⟨passed ++ ahead, some passed.length⟩ =
      .ok (textAll ahead, ⟨passed ++ exhaustedAll ahead, some (passed ++ ahead).length⟩) := by
  induction ahead generalizing passed with
  | nil =>
      rw [renderAhead]
      simp [Table.hasNext, textAll, exhaustedAll]
  | cons binding rest ih =>
      obtain ⟨name, entry⟩ := binding
      have rendered := each (name, entry) (by simp)
      have tail := ih (passed ++ [(name, entry.exhausted)])
        fun other member => each other (List.mem_cons_of_mem _ member)
      have more : Table.hasNext ⟨passed ++ (name, entry) :: rest, some passed.length⟩ = true := by
        simp [Table.hasNext]
      have step := Table.next_here owner name entry passed rest
      rw [renderAhead, if_pos more]
      -- The entry yielded is put back rendered, and joins what is passed.
      split
      · rename_i misuse failed
        rw [step] at failed
        cases failed
      · rename_i yielded after taken
        rw [step] at taken
        cases taken
        simp only [rendered, Table.putBack_here, tail]
        simp [textAll, exhaustedAll]

theorem Entry.render_eq (entry : Entry) : entry.render = .ok (entry.text, entry.exhausted) := by
  induction entry with
  | leaf declared => simp [render, exhausted]
  | scope header table each =>
      cases header with
      | block label =>
          obtain ⟨bindings, cursor⟩ := table
          have loop := renderAhead_eq label [] bindings each
          simp only [List.nil_append, List.length_nil] at loop
          rw [render, Table.reset, loop]
          rfl
      | method name returns paramCount => simp [render, exhausted]
      | «class» name super? => simp [render, exhausted]

theorem Scope.renderBindings_eq (scope : Scope) :
    scope.renderBindings = .ok (textAll scope.table.bindings, scope.table.exhausted) :=
  renderAhead_eq scope.name [] scope.table.bindings fun binding _ => binding.2.render_eq

def Tree.exhausted : Tree → Tree
  | .program name table => .program name table.exhausted
  | .ofEntry entry => .ofEntry entry.exhausted

theorem Tree.render_eq (tree : Tree) : tree.render = .ok (tree.text, tree.exhausted) := by
  cases tree with
  | program name table =>
      have loop := renderAhead_eq name [] table.bindings fun binding _ => binding.2.render_eq
      simp only [List.nil_append, List.length_nil] at loop
      rw [render, Table.reset, loop]
      rfl
  | ofEntry entry =>
      rw [render, entry.render_eq]
      rfl

section Layout
variable (options : RenderOptions) (classes? : Option ClassRegistry)

mutual

def Entry.laidOut : Entry → Entry
  | .scope (.class name super?) table => .scope (.class name super?) table.laidOut
  | entry => entry.exhausted

def Table.laidOut : Table Entry → Table Entry
  | ⟨bindings, cursor⟩ =>
      ⟨if options.classMembers then laidOutAll bindings else bindings, cursor⟩

def laidOutAll : List (String × Entry) → List (String × Entry)
  | [] => []
  | (name, entry) :: rest => (name, entry.laidOut) :: laidOutAll rest

end

theorem laidOutAll_eq_map (bindings : List (String × Entry)) :
    laidOutAll options bindings =
      bindings.map fun binding => (binding.1, binding.2.laidOut options) := by
  induction bindings with
  | nil => rfl
  | cons binding rest ih => rw [laidOutAll, ih, List.map_cons]

theorem Table.laidOut_same (table : Table Entry)
    (each : ∀ binding ∈ table.bindings, binding.2.laidOut options = binding.2) :
    table.laidOut options = table := by
  obtain ⟨bindings, cursor⟩ := table
  have same : laidOutAll options bindings = bindings := by
    rw [laidOutAll_eq_map]
    calc bindings.map (fun binding => (binding.1, binding.2.laidOut options))
      _ = bindings.map id := List.map_congr_left fun binding inside =>
          Prod.ext rfl (each binding inside)
      _ = bindings := List.map_id bindings
  rw [laidOut, same, ite_self]

theorem except_bind_ok {Error First Second : Type} (first : Except Error First)
    (next : First → Except Error Second) (result : Second) :
    (first >>= next) = .ok result ↔ ∃ middle, first = .ok middle ∧ next middle = .ok result := by
  cases first <;> simp [bind, Except.bind]

theorem layoutMembers_ok (depth : Nat) (indent text : String)
    (bindings after : List (String × Entry))
    (each : ∀ binding ∈ bindings, ∀ text after,
      layoutMember options classes? depth indent binding.2 = .ok (text, after) →
        after = binding.2.laidOut options)
    (written : layoutMembers options classes? depth indent bindings = .ok (text, after)) :
    after = laidOutAll options bindings := by
  induction bindings generalizing text after with
  | nil =>
      cases written
      rfl
  | cons binding rest ih =>
      obtain ⟨name, entry⟩ := binding
      simp only [layoutMembers, except_bind_ok, Prod.exists] at written
      obtain ⟨first, member, atMember, others, members, atRest, finished⟩ := written
      cases finished
      have head := each (name, entry) (by simp) first member atMember
      have tail := ih others members
        (fun other inside => each other (List.mem_cons_of_mem _ inside)) atRest
      rw [laidOutAll, head, tail]

theorem layoutTable_ok (depth : Nat) (name text : String) (super? : Option ClassId)
    (table after : Table Entry)
    (each : ∀ binding ∈ table.bindings, ∀ depth indent text after,
      layoutMember options classes? depth indent binding.2 = .ok (text, after) →
        after = binding.2.laidOut options)
    (written : layoutTable options classes? depth name super? table = .ok (text, after)) :
    after = table.laidOut options := by
  obtain ⟨bindings, cursor⟩ := table
  simp only [layoutTable, except_bind_ok] at written
  obtain ⟨indent, _, written⟩ := written
  rw [Table.laidOut]
  split at written
  · rename_i shown
    simp only [except_bind_ok, Prod.exists] at written
    obtain ⟨inner, _, body, members, laid, finished⟩ := written
    cases finished
    rw [if_pos shown, layoutMembers_ok options classes? _ inner body bindings members
      (fun binding inside => each binding inside _ inner) laid]
  · rename_i hidden
    cases written
    rw [if_neg hidden]

/-- A member that is no class is rendered, and stays as rendering leaves it. -/
theorem layoutMember_rendered (entry after : Entry) (depth : Nat) (indent text : String)
    (other : ∀ name super? table, entry ≠ .scope (.class name super?) table)
    (written : layoutMember options classes? depth indent entry = .ok (text, after)) :
    after = entry.exhausted := by
  rw [layoutMember.eq_2 _ _ _ _ _ other, entry.render_eq] at written
  cases written
  rfl

theorem layoutMember_ok (entry after : Entry) (depth : Nat) (indent text : String)
    (written : layoutMember options classes? depth indent entry = .ok (text, after)) :
    after = entry.laidOut options := by
  induction entry generalizing depth indent text after with
  | leaf declared => exact layoutMember_rendered _ _ _ _ _ _ _ (by simp) written
  | scope header table each =>
      cases header with
      | block label => exact layoutMember_rendered _ _ _ _ _ _ _ (by simp) written
      | method name returns paramCount =>
          exact layoutMember_rendered _ _ _ _ _ _ _ (by simp) written
      | «class» name super? =>
          simp only [layoutMember, except_bind_ok, Prod.exists] at written
          obtain ⟨inner, laid, atTable, finished⟩ := written
          cases finished
          have same := layoutTable_ok options classes? depth name text super? table laid
            (fun binding inside depth indent text after => each binding inside after depth indent text)
            atTable
          rw [same, Entry.laidOut]

theorem Class.layout_ok (self after : Class) (text : String)
    (written : self.layout options classes? = .ok (text, after)) :
    after = { self with table := self.table.laidOut options } := by
  simp only [Class.layout, except_bind_ok, Prod.exists] at written
  obtain ⟨inner, laid, atTable, finished⟩ := written
  cases finished
  rw [layoutTable_ok options classes? 0 self.name text self.super? self.table laid
    (fun binding _ depth indent text after => layoutMember_ok options classes? _ after depth indent text)
    atTable]

end Layout
end SymbolTable
