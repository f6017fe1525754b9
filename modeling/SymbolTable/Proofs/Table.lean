import SymbolTable.Table

/-!
Tables read by name and by position. `lookup?` finds the first binding of a
name, and `replace` changes exactly the binding that `lookup?` finds, so both
are described by the same split of the bindings at that place.
-/
namespace SymbolTable.Table

variable {Value : Type}

def names (table : Table Value) : List String :=
  table.bindings.map Prod.fst

theorem names_length (table : Table Value) : table.names.length = table.size := by
  simp [names, size]

theorem names_push (table : Table Value) (name : String) (value : Value) :
    (table.push name value).names = table.names ++ [name] := by
  simp [names, push]

theorem lookup_splits (table : Table Value) (name : String) (value : Value)
    (found : table.lookup? name = some value) :
    ∃ before after, table.bindings = before ++ (name, value) :: after ∧
      ∀ binding ∈ before, binding.1 ≠ name := by
  obtain ⟨before, after, split, absent⟩ := List.lookup_eq_some_iff.mp found
  refine ⟨before, after, split, ?_⟩
  intro binding member same
  have differs := absent binding member
  simp [same] at differs

theorem lookup_mem (table : Table Value) (name : String) (value : Value)
    (found : table.lookup? name = some value) : (name, value) ∈ table.bindings := by
  obtain ⟨before, after, split, _⟩ := table.lookup_splits name value found
  simp [split]

theorem lookup_none_iff (table : Table Value) (name : String) :
    table.lookup? name = none ↔ name ∉ table.names := by
  rw [lookup?, List.lookup_eq_none_iff, names]
  constructor
  · intro absent member
    obtain ⟨binding, inside, same⟩ := List.mem_map.mp member
    have differs := absent binding inside
    simp [same] at differs
  · intro absent binding inside
    simp only [bne_iff_ne]
    intro same
    exact absent (List.mem_map.mpr ⟨binding, inside, same.symm⟩)

theorem contains_iff (table : Table Value) (name : String) :
    table.contains name = true ↔ name ∈ table.names := by
  rw [contains, Option.isSome_iff_ne_none, ne_eq, lookup_none_iff, Classical.not_not]

/-- With distinct names every binding is the one its name finds. -/
theorem lookup_of_mem (table : Table Value) (distinct : table.names.Nodup) (name : String)
    (value : Value) (bound : (name, value) ∈ table.bindings) : table.lookup? name = some value := by
  obtain ⟨before, after, split⟩ := List.append_of_mem bound
  refine List.lookup_eq_some_iff.mpr ⟨before, after, split, ?_⟩
  intro binding member
  simp only [bne_iff_ne]
  intro same
  rw [names, split, List.map_append, List.map_cons, List.nodup_append] at distinct
  exact distinct.2.2 binding.1 (List.mem_map_of_mem member) name (by simp) same.symm

/-- A name finds the binding at the first position that has the name. -/
theorem lookup_first (table : Table Value) (name : String) (value : Value)
    (found : table.lookup? name = some value) :
    ∃ position : Nat, table.bindings[position]? = some (name, value) ∧
      ∀ before < position, table.names[before]? ≠ some name := by
  obtain ⟨front, behind, split, absent⟩ := table.lookup_splits name value found
  refine ⟨front.length, by simp [split], ?_⟩
  intro before inside same
  rw [names, split, List.map_append, List.getElem?_append_left (by simpa using inside)] at same
  obtain ⟨binding, member, equal⟩ := List.mem_map.mp (List.mem_of_getElem? same)
  exact absent binding member equal

theorem lookup_of_first (table : Table Value) (name : String) (value : Value) (position : Nat)
    (bound : table.bindings[position]? = some (name, value))
    (first : ∀ before < position, table.names[before]? ≠ some name) :
    table.lookup? name = some value := by
  obtain ⟨inside, here⟩ := List.getElem?_eq_some_iff.mp bound
  refine List.lookup_eq_some_iff.mpr
    ⟨table.bindings.take position, table.bindings.drop (position + 1), ?_, ?_⟩
  · rw [← here, ← List.drop_eq_getElem_cons inside, List.take_append_drop]
  · intro binding member
    obtain ⟨before, there⟩ := List.mem_iff_getElem?.mp member
    have nearer : before < position := by
      have bounded := (List.getElem?_eq_some_iff.mp there).1
      rw [List.length_take] at bounded
      omega
    rw [List.getElem?_take_of_lt nearer] at there
    simp only [bne_iff_ne]
    intro same
    exact first before nearer (by simp [names, there, same])

theorem replaceIn_split (name : String) (old new : Value) (before after : List (String × Value))
    (absent : ∀ binding ∈ before, binding.1 ≠ name) :
    replaceIn name new (before ++ (name, old) :: after) = before ++ (name, new) :: after := by
  induction before with
  | nil => simp [replaceIn]
  | cons binding rest ih =>
      have differs : name ≠ binding.1 := (absent binding (by simp)).symm
      have tail := ih fun other member => absent other (List.mem_cons_of_mem binding member)
      simp [replaceIn, differs, tail]

/-- Replacing changes the value of one binding and nothing else. -/
theorem replace_splits (table : Table Value) (name : String) (old new : Value)
    (found : table.lookup? name = some old) :
    ∃ before after, table.bindings = before ++ (name, old) :: after ∧
      (table.replace name new).bindings = before ++ (name, new) :: after := by
  obtain ⟨before, after, split, absent⟩ := table.lookup_splits name old found
  refine ⟨before, after, split, ?_⟩
  rw [replace, split]
  exact replaceIn_split name old new before after absent

theorem names_replace (table : Table Value) (name : String) (old new : Value)
    (found : table.lookup? name = some old) : (table.replace name new).names = table.names := by
  obtain ⟨before, after, split, replaced⟩ := table.replace_splits name old new found
  simp [names, split, replaced]

theorem lookup_replace (table : Table Value) (name : String) (old new : Value)
    (found : table.lookup? name = some old) : (table.replace name new).lookup? name = some new := by
  obtain ⟨before, after, split, absent⟩ := table.lookup_splits name old found
  rw [lookup?, replace, split, replaceIn_split name old new before after absent]
  refine List.lookup_eq_some_iff.mpr ⟨before, after, rfl, ?_⟩
  intro binding member
  simpa using (absent binding member).symm

theorem lookup_replace_other (table : Table Value) (name other : String) (value : Value)
    (differs : other ≠ name) : (table.replace name value).lookup? other = table.lookup? other := by
  obtain ⟨bindings, cursor⟩ := table
  simp only [lookup?, replace]
  induction bindings with
  | nil => rfl
  | cons binding rest ih =>
      obtain ⟨key, old⟩ := binding
      by_cases same : name = key
      · subst same
        simp [replaceIn, List.lookup_cons, beq_eq_false_iff_ne.mpr differs]
      · simp only [replaceIn, if_neg same, List.lookup_cons, ih]

/-- Putting back what a name is bound to changes nothing. -/
theorem replace_same (table : Table Value) (name : String) (value : Value)
    (found : table.lookup? name = some value) : table.replace name value = table := by
  obtain ⟨before, after, split, replaced⟩ := table.replace_splits name value value found
  have bindings : replaceIn name value table.bindings = table.bindings := replaced.trans split.symm
  rw [replace, bindings]

/-- A binding that is there is found behind the same name after a further one. -/
theorem lookup_push (table : Table Value) (name other : String) (value found : Value)
    (bound : table.lookup? other = some found) :
    (table.push name value).lookup? other = some found := by
  rw [lookup?] at bound ⊢
  rw [push, List.lookup_append, bound, Option.some_or]

/-- A change of every value under its name shows where the name is looked up. -/
theorem lookup_map (before after : Table Value) (change : Value → Value) (name : String)
    (mapped : after.bindings = before.bindings.map fun binding => (binding.1, change binding.2)) :
    after.lookup? name = (before.lookup? name).map change := by
  rw [lookup?, lookup?, mapped]
  induction before.bindings with
  | nil => rfl
  | cons binding rest ih =>
      rw [List.map_cons, List.lookup_cons, List.lookup_cons, ih]
      split <;> rfl

theorem next_ok (table after : Table Value) (owner : String) (value : Value)
    (step : table.next owner = .ok (value, after)) :
    ∃ position name, table.cursor = some position ∧
      table.bindings[position]? = some (name, value) ∧
      after = { table with cursor := some (position + 1) } := by
  unfold next at step
  split at step
  · cases step
  · rename_i position started
    split at step
    · cases step
    · rename_i name found there
      cases step
      exact ⟨position, name, started, there, rfl⟩

end SymbolTable.Table
