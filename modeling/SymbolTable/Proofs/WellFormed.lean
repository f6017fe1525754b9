import SymbolTable.Proofs.Operation

/-!
Well-formed trees. `Scope.Proper` is what holds of one scope, whatever the
scopes nested in it look like; a tree is well formed if every scope in it is
proper and every variable in it has a name. All trees that can be made are well
formed: no operation breaks a scope that it changes, and on the way to that
scope nothing changes that `Scope.Proper` can see.
-/
namespace SymbolTable

structure Scope.Proper (scope : Scope) : Prop where
  named : scope.name ≠ ""
  labelled : "" ∉ scope.table.names
  distinct : scope.table.names.Nodup
  members : scope.kind = .class → ∀ binding ∈ scope.table.bindings, binding.2.kind.isClassMember
  parameters : ∀ name returns paramCount,
    scope.owner = .nested (.method name returns paramCount) →
      paramCount ≤ scope.table.size ∧ ∀ binding ∈ scope.table.bindings.take paramCount,
        ∃ declared, binding = (declared.name, .leaf declared)
  within : ∀ position, scope.table.cursor = some position → position ≤ scope.table.size

inductive Entry.WellFormed : Entry → Prop where
  | leaf {declared} : declared.name ≠ "" → WellFormed (.leaf declared)
  | scope {header table} : Scope.Proper ⟨.nested header, table⟩ →
      (∀ binding ∈ table.bindings, WellFormed binding.2) → WellFormed (.scope header table)

def Scope.WellFormed (scope : Scope) : Prop :=
  scope.Proper ∧ ∀ binding ∈ scope.table.bindings, binding.2.WellFormed

def Tree.WellFormed : Tree → Prop
  | .program name table => Scope.WellFormed ⟨.program name, table⟩
  | .ofEntry entry => entry.WellFormed

theorem Entry.wellFormed_scope (header : Header) (table : Table Entry) :
    (Entry.scope header table).WellFormed ↔ Scope.WellFormed ⟨.nested header, table⟩ := by
  constructor
  · intro sound
    cases sound with
    | scope proper inside => exact ⟨proper, inside⟩
  · rintro ⟨proper, inside⟩
    exact .scope proper inside

theorem Scope.wellFormed_tree (scope : Scope) : scope.tree.WellFormed ↔ scope.WellFormed := by
  obtain ⟨owner, table⟩ := scope
  cases owner with
  | program name => rfl
  | nested header => exact Entry.wellFormed_scope header table

theorem Tree.wellFormed_scope (tree : Tree) (scope : Scope) (owned : tree.scope? = some scope)
    (sound : tree.WellFormed) : scope.WellFormed := by
  cases tree with
  | program name table =>
      cases owned
      exact sound
  | ofEntry entry =>
      cases sound with
      | leaf named => cases owned
      | scope proper inside =>
          cases owned
          exact ⟨proper, inside⟩

/-- What `Scope.Proper` sees of a binding: not what is nested in it. -/
def outline (binding : String × Entry) : String × Kind × Option Variable :=
  (binding.1, binding.2.kind, binding.2.leaf?)

theorem names_outline (table : Table Entry) :
    table.names = (table.bindings.map outline).map Prod.fst := by
  simp [Table.names, outline]

theorem kind_outline (binding : String × Entry) (table : Table Entry)
    (member : outline binding ∈ table.bindings.map outline) :
    ∃ other ∈ table.bindings, other.2.kind = binding.2.kind := by
  obtain ⟨other, inside, same⟩ := List.mem_map.mp member
  simp only [outline, Prod.mk.injEq] at same
  exact ⟨other, inside, same.2.1⟩

theorem leaf_outline (binding other : String × Entry) (same : outline other = outline binding)
    (declared : Variable) (leaf : binding = (declared.name, .leaf declared)) : other = binding := by
  obtain ⟨name, entry⟩ := other
  subst leaf
  simp only [outline, Prod.mk.injEq, Entry.leaf?] at same
  cases entry with
  | leaf found =>
      simp only [Option.some.injEq] at same
      rw [same.1, same.2.2]
  | scope header table => cases same.2.2

/-- A scope stays proper if its bindings change only on the inside. -/
theorem Scope.Proper.of_outline {scope : Scope} (proper : scope.Proper) (table : Table Entry)
    (same : table.bindings.map outline = scope.table.bindings.map outline)
    (within : ∀ position, table.cursor = some position → position ≤ table.size) :
    Scope.Proper ⟨scope.owner, table⟩ := by
  have names : table.names = scope.table.names := by rw [names_outline, same, ← names_outline]
  have size : table.size = scope.table.size := by
    rw [← table.names_length, names, scope.table.names_length]
  refine ⟨proper.named, names ▸ proper.labelled, names ▸ proper.distinct, ?_, ?_, within⟩
  · intro kind binding inside
    have member := List.mem_map_of_mem (f := outline) inside
    rw [same] at member
    obtain ⟨other, present, alike⟩ := kind_outline binding scope.table member
    exact alike ▸ proper.members kind other present
  · intro name returns paramCount owned
    obtain ⟨bounded, leaves⟩ := proper.parameters name returns paramCount owned
    refine ⟨size ▸ bounded, ?_⟩
    intro binding inside
    have member := List.mem_map_of_mem (f := outline) inside
    rw [List.map_take, same, ← List.map_take] at member
    obtain ⟨other, present, alike⟩ := List.mem_map.mp member
    obtain ⟨declared, leaf⟩ := leaves other present
    exact ⟨declared, (leaf_outline other binding alike.symm declared leaf).trans leaf⟩

theorem Scope.Proper.push {scope : Scope} (proper : scope.Proper) (name : String) (entry : Entry)
    (admitted : scope.admits entry.kind) (named : name ≠ "") (fresh : scope.lookup? name = none) :
    Scope.Proper { scope with table := scope.table.push name entry } := by
  have absent := (scope.table.lookup_none_iff name).mp fresh
  have grown : (scope.table.push name entry).size = scope.table.size + 1 := by
    simp [Table.push, Table.size]
  refine ⟨proper.named, ?_, ?_, ?_, ?_, ?_⟩
  · rw [Table.names_push, List.mem_append, List.mem_singleton]
    rintro (old | new)
    · exact proper.labelled old
    · exact named new.symm
  · rw [Table.names_push, List.nodup_append]
    refine ⟨proper.distinct, by simp, ?_⟩
    intro old member new same equal
    rw [List.mem_singleton] at same
    exact absent (same ▸ equal ▸ member)
  · intro kind binding inside
    rcases List.mem_append.mp inside with old | new
    · exact proper.members kind binding old
    · rw [List.mem_singleton.mp new]
      have owned : scope.kind = .class := kind
      simpa [admits, owned] using admitted
  · intro method returns paramCount owned
    obtain ⟨bounded, leaves⟩ := proper.parameters method returns paramCount owned
    refine ⟨by rw [grown]; omega, ?_⟩
    have front : (scope.table.push name entry).bindings.take paramCount =
        scope.table.bindings.take paramCount := List.take_append_of_le_length bounded
    rw [front]
    exact leaves
  · intro position started
    have reached := proper.within position started
    rw [grown]
    omega

theorem Scope.WellFormed.push {scope : Scope} (sound : scope.WellFormed) (name : String)
    (entry : Entry) (inner : entry.WellFormed) (admitted : scope.admits entry.kind)
    (named : name ≠ "") (fresh : scope.lookup? name = none) :
    Scope.WellFormed { scope with table := scope.table.push name entry } := by
  refine ⟨sound.1.push name entry admitted named fresh, ?_⟩
  intro binding inside
  rcases List.mem_append.mp inside with old | new
  · exact sound.2 binding old
  · rw [List.mem_singleton.mp new]
    exact inner

theorem Entry.outline_exhausted (name : String) (entry : Entry) :
    outline (name, entry.exhausted) = outline (name, entry) := by
  unfold exhausted
  split <;> rfl

theorem Table.outline_exhausted (table : Table Entry) :
    table.exhausted.bindings.map outline = table.bindings.map outline := by
  simp only [exhausted, exhaustedAll_eq_map, List.map_map]
  apply List.map_congr_left
  intro binding _
  exact Entry.outline_exhausted binding.1 binding.2

theorem Scope.Proper.exhausted {scope : Scope} (proper : scope.Proper) :
    Scope.Proper ⟨scope.owner, scope.table.exhausted⟩ := by
  apply proper.of_outline scope.table.exhausted scope.table.outline_exhausted
  intro position started
  cases started
  simp [Table.exhausted, Table.size, exhaustedAll_eq_map]

theorem Entry.WellFormed.exhausted {entry : Entry} (sound : entry.WellFormed) :
    entry.exhausted.WellFormed := by
  induction sound with
  | leaf named => simpa [Entry.exhausted] using Entry.WellFormed.leaf named
  | @scope header table proper inside ih =>
      cases header with
      | block label =>
          rw [exhausted_block]
          refine .scope proper.exhausted ?_
          intro binding member
          obtain ⟨old, present, same⟩ := table.mem_exhausted binding member
          rw [← same]
          exact ih old present
      | method name returns paramCount => simpa [Entry.exhausted] using .scope proper inside
      | «class» name super? => simpa [Entry.exhausted] using .scope proper inside

theorem Scope.WellFormed.exhausted {scope : Scope} (sound : scope.WellFormed) :
    Scope.WellFormed ⟨scope.owner, scope.table.exhausted⟩ := by
  refine ⟨sound.1.exhausted, ?_⟩
  intro binding member
  obtain ⟨old, present, same⟩ := scope.table.mem_exhausted binding member
  rw [← same]
  exact (sound.2 old present).exhausted

theorem Scope.WellFormed.moved {scope : Scope} (sound : scope.WellFormed) (position : Nat)
    (bounded : position ≤ scope.table.size) :
    Scope.WellFormed ⟨scope.owner, { scope.table with cursor := some position }⟩ := by
  refine ⟨sound.1.of_outline _ rfl ?_, sound.2⟩
  intro reached started
  cases started
  exact bounded

/-- A layout leaves a well-formed class as it was: no member has a cursor that
rendering would move. -/
theorem Entry.WellFormed.laidOut {entry : Entry} (sound : entry.WellFormed)
    (options : RenderOptions) (member : entry.kind.isClassMember) :
    entry.laidOut options = entry := by
  induction sound with
  | leaf named => simp [Entry.laidOut, Entry.exhausted]
  | @scope header table proper inside ih =>
      cases header with
      | block label => cases member
      | method name returns paramCount => simp [Entry.laidOut, Entry.exhausted]
      | «class» name super? =>
          have same := table.laidOut_same options fun binding bound =>
            ih binding bound (proper.members rfl binding bound)
          rw [Entry.laidOut, same]

theorem Scope.WellFormed.laidOut {scope : Scope} (sound : scope.WellFormed)
    (options : RenderOptions) (owned : scope.kind = .class) :
    scope.table.laidOut options = scope.table :=
  scope.table.laidOut_same options fun binding bound =>
    (sound.2 binding bound).laidOut options (sound.1.members owned binding bound)

/-- The step lemma for one scope. -/
theorem Scope.WellFormed.change {scope : Scope} (sound : scope.WellFormed)
    (brought? : Option Entry) (inner : ∀ entry, brought? = some entry → entry.WellFormed)
    (after : Table Entry) (changed : scope.Change brought? after) :
    Scope.WellFormed ⟨scope.owner, after⟩ := by
  cases changed with
  | kept => exact sound
  | @bound name entry bound brings made =>
      obtain ⟨admitted, named, fresh, same⟩ := scope.bind_ok bound name entry made
      subst same
      exact sound.push name entry (inner entry brings) admitted named fresh
  | @moved position bounded => exact sound.moved position bounded
  | rendered => exact sound.exhausted
  | @laidOut options owned =>
      rw [sound.laidOut options owned]
      exact sound

/-- A scope in another's place, under the same header, does not show in the
outline of the bindings. -/
theorem Scope.WellFormed.replace {scope : Scope} (sound : scope.WellFormed) (name : String)
    (header : Header) (old new : Table Entry)
    (found : scope.lookup? name = some (.scope header old))
    (inner : Scope.WellFormed ⟨.nested header, new⟩) :
    Scope.WellFormed ⟨scope.owner, scope.table.replace name (.scope header new)⟩ := by
  obtain ⟨before, behind, split, replaced⟩ :=
    scope.table.replace_splits name (.scope header old) (.scope header new) found
  have alike : (scope.table.replace name (.scope header new)).bindings.map outline =
      scope.table.bindings.map outline := by
    rw [split, replaced]
    simp [outline, Entry.kind, Entry.leaf?]
  have size : (scope.table.replace name (.scope header new)).size = scope.table.size := by
    simp [Table.size, split, replaced]
  refine ⟨sound.1.of_outline _ alike ?_, ?_⟩
  · intro position started
    rw [size]
    exact sound.1.within position started
  · intro binding member
    have present : ∀ other ∈ before ++ behind, other.2.WellFormed := by
      intro other inside
      apply sound.2 other
      rw [split]
      rcases List.mem_append.mp inside with left | right
      · exact List.mem_append_left _ left
      · exact List.mem_append_right _ (List.mem_cons_of_mem _ right)
    rw [replaced, List.mem_append, List.mem_cons] at member
    rcases member with left | here | right
    · exact present binding (List.mem_append_left _ left)
    · rw [here]
      exact (Entry.wellFormed_scope header new).mpr inner
    · exact present binding (List.mem_append_right _ right)

theorem Scope.WellFormed.edit {scope after : Scope} (sound : scope.WellFormed) (act : Act)
    (inner : ∀ entry, act.brought? = some entry → entry.WellFormed) (path : List String)
    (answer : Answer) (edited : scope.edit act.on path = some (answer, after)) :
    after.WellFormed := by
  induction path generalizing scope after with
  | nil =>
      cases edited
      exact sound.change act.brought? inner _ (act.on_change scope)
  | cons name rest ih =>
      -- The scope that the next name leads to is well formed before the edit and,
      -- by induction, after it; `replace` carries this over to the scope above.
      obtain ⟨header, table, deeper, found, inside, same⟩ :=
        Scope.edit_cons act.on scope after name rest answer edited
      have bound := sound.2 (name, .scope header table) (scope.table.lookup_mem _ _ found)
      have before : Scope.WellFormed ⟨.nested header, table⟩ :=
        (Entry.wellFormed_scope header table).mp bound
      have kept : deeper.WellFormed := ih before inside
      have owner : deeper.owner = .nested header := Scope.edit_owner act.on _ _ rest answer inside
      subst same
      apply sound.replace name header table deeper.table found
      rw [← owner]
      exact kept

/-- As long as a parameter can be added, all bindings of the method are
parameters, and so all of them are after it is added. -/
theorem Method.wellFormed_addParameter (method longer : Method) (parameter : Variable)
    (sound : method.entry.WellFormed) (made : method.addParameter parameter = .ok longer) :
    longer.entry.WellFormed := by
  obtain ⟨bodiless, named, fresh, same⟩ := method.addParameter_ok longer parameter made
  have before : method.scope.WellFormed := (Entry.wellFormed_scope _ _).mp sound
  have pushed := before.push parameter.name (.leaf parameter) (.leaf named) rfl named fresh
  obtain ⟨bounded, leaves⟩ := before.1.parameters _ _ _ rfl
  have full : method.table.bindings.take method.paramCount = method.table.bindings :=
    List.take_of_length_le bodiless
  have size : (method.table.push parameter.name (.leaf parameter)).size = method.table.size + 1 := by
    simp [Table.push, Table.size]
  subst same
  refine (Entry.wellFormed_scope _ _).mpr ⟨⟨pushed.1.named, pushed.1.labelled, pushed.1.distinct,
    pushed.1.members, ?_, pushed.1.within⟩, pushed.2⟩
  intro name returns paramCount owned
  cases owned
  constructor
  · rw [size]
    exact Nat.succ_le_succ bounded
  · intro binding inside
    rcases List.mem_append.mp (List.mem_of_mem_take inside) with old | new
    · exact leaves binding (full.symm ▸ old)
    · exact ⟨parameter, List.mem_singleton.mp new⟩

theorem Class.wellFormed_extend (self : Class) (super : ClassId) (sound : self.entry.WellFormed) :
    (self.extend super).entry.WellFormed := by
  obtain ⟨proper, inside⟩ := (Entry.wellFormed_scope _ _).mp sound
  exact .scope ⟨proper.named, proper.labelled, proper.distinct, proper.members, nofun,
    proper.within⟩ inside

/-- The step lemma for a whole tree. -/
theorem Tree.WellFormed.change {tree after : Tree} (sound : tree.WellFormed)
    (brought? : Option Entry) (inner : ∀ entry, brought? = some entry → entry.WellFormed)
    (changed : tree.Change brought? after) : after.WellFormed := by
  cases changed with
  | kept => exact sound
  | @edited scope after act path answer owned brings edited =>
      rw [Scope.wellFormed_tree]
      exact (tree.wellFormed_scope scope owned sound).edit act (brings ▸ inner) path answer edited
  | @longer method after parameter same _ made =>
      subst same
      exact method.wellFormed_addParameter after parameter sound made
  | @extended self super same =>
      subst same
      exact self.wellFormed_extend super sound

theorem Tree.WellFormed.find {tree part : Tree} (sound : tree.WellFormed) (path : List String)
    (found : tree.find path = .ok part) : part.WellFormed := by
  induction path generalizing tree with
  | nil =>
      cases found
      exact sound
  | cons name rest ih =>
      obtain ⟨scope, entry, owned, bound, onward⟩ := (tree.find_cons part name rest).mp found
      have inside : (Tree.ofEntry entry).WellFormed :=
        (tree.wellFormed_scope scope owned sound).2 (name, entry)
          (scope.table.lookup_mem name entry bound)
      exact ih inside onward

theorem entryName_ok (name accepted : String) (made : entryName name = .ok accepted) :
    accepted = name ∧ name ≠ "" := by
  unfold entryName at made
  split at made
  · cases made
  · rename_i named
    cases made
    exact ⟨rfl, named⟩

theorem entryName_map {Made : Type} (name : String) (build : String → Made) (made : Made)
    (success : (entryName name).map build = .ok made) : name ≠ "" ∧ made = build name := by
  cases accepted : entryName name with
  | error fault => simp [accepted, Except.map] at success
  | ok kept =>
      obtain ⟨same, named⟩ := entryName_ok name kept accepted
      subst same
      rw [accepted] at success
      cases success
      exact ⟨named, rfl⟩

/-- A scope without bindings is well formed as soon as it has a name. -/
theorem Scope.wellFormed_empty (owner : Owner) (named : owner.name ≠ "")
    (bodiless : ∀ name returns paramCount, owner = .nested (.method name returns paramCount) →
      paramCount = 0) : Scope.WellFormed ⟨owner, .empty⟩ := by
  refine ⟨⟨named, by simp [Table.names, Table.empty], by simp [Table.names, Table.empty],
    ?_, ?_, ?_⟩, ?_⟩
  · intro _ binding inside
    cases inside
  · intro name returns paramCount owned
    rw [bodiless name returns paramCount owned]
    refine ⟨Nat.zero_le _, ?_⟩
    intro binding inside
    cases inside
  · intro position started
    cases started
  · intro binding inside
    cases inside

theorem Obtainable.wellFormed {tree : Tree} (obtained : Obtainable tree) : tree.WellFormed := by
  induction obtained with
  | «variable» made =>
      obtain ⟨named, same⟩ := entryName_map _ _ _ made
      subst same
      exact .leaf named
  | method made =>
      obtain ⟨named, same⟩ := entryName_map _ _ _ made
      subst same
      refine (Entry.wellFormed_scope _ _).mpr (Scope.wellFormed_empty _ named ?_)
      intro name returns paramCount owned
      cases owned
      rfl
  | «class» made =>
      obtain ⟨named, same⟩ := entryName_map _ _ _ made
      subst same
      exact (Entry.wellFormed_scope _ _).mpr (Scope.wellFormed_empty _ named nofun)
  | block made | program made =>
      obtain ⟨named, same⟩ := entryName_map _ _ _ made
      subst same
      exact (Scope.wellFormed_tree _).mpr (Scope.wellFormed_empty _ named nofun)
  | copy _ found sound => exact sound.find _ found
  | step operation _ _ sound inner =>
      exact sound.change operation.brought? inner (Tree.perform_change _ operation)

def Class.classes (self : Class) : List Class :=
  self.table.values.filterMap Entry.class?

/-- Entries that are no blocks are fields, methods and classes. -/
theorem members_partition (entries : List Entry)
    (members : ∀ entry ∈ entries, entry.kind.isClassMember) :
    entries.Perm ((entries.filterMap Entry.leaf?).map Entry.leaf ++
      (entries.filterMap Entry.method?).map Method.entry ++
      (entries.filterMap Entry.class?).map Class.entry) := by
  induction entries with
  | nil => exact .nil
  | cons entry rest ih =>
      have tail := ih fun other inside => members other (List.mem_cons_of_mem _ inside)
      cases entry with
      | leaf declared => exact tail.cons _
      | scope header table =>
          cases header with
          | block label =>
              have refused := members _ List.mem_cons_self
              cases refused
          -- A method or a class goes to the head of its group, behind those before it.
          | method name returns paramCount =>
              simp only [List.append_assoc] at tail ⊢
              exact (tail.cons _).trans List.perm_middle.symm
          | «class» name super? => exact (tail.cons _).trans List.perm_middle.symm

theorem Class.members_perm (self : Class) (sound : self.entry.WellFormed) :
    self.table.values.Perm (self.fields.map Entry.leaf ++ self.methods.map Method.entry ++
      self.classes.map Class.entry) := by
  have owned : self.scope.WellFormed := (Entry.wellFormed_scope _ _).mp sound
  apply members_partition
  intro entry inside
  obtain ⟨binding, bound, same⟩ := List.mem_map.mp inside
  exact same ▸ owned.1.members rfl binding bound

/-- Every tree that can be made is well formed at every depth, and the members
of every class in it are its fields, its methods and its nested classes. -/
theorem obtainable_wellFormed (tree : Tree) (obtained : Obtainable tree) :
    tree.WellFormed ∧ ∀ path self, tree.find path = .ok (.ofEntry (Class.entry self)) →
      self.table.values.Perm (self.fields.map Entry.leaf ++ self.methods.map Method.entry ++
        self.classes.map Class.entry) := by
  refine ⟨obtained.wellFormed, ?_⟩
  intro path self found
  exact self.members_perm (obtained.wellFormed.find path found)

/-- A class that refused a block, and a method whose body one is, rendered
while a traversal of the class is under way. -/
theorem obtainable_wellFormed_class :
    let point : Entry := .scope (.class "Point" none) .empty
    let field : Entry := .leaf ⟨"x", .int⟩
    let block : Entry := .scope (.block "block#0") .empty
    let scale : Entry := .scope (.method "scale" .void 1)
      ⟨[("by", .leaf ⟨"by", .float⟩), ("body", block)], none⟩
    let tree := Tree.run (.program "Main" .empty)
      [.at [] (.bind "P" point), .at ["P"] (.bind "b" block), .at ["P"] (.bind "x" field),
        .at ["P"] (.bind "" field), .at ["P"] (.bind "m" scale), .at ["P", "m", "body"] (.bind "x" field),
        .at ["P"] .reset, .at ["P"] .next, .at [] .render]
    Obtainable tree ∧ tree.WellFormed ∧
      ∀ path self, tree.find path = .ok (.ofEntry (Class.entry self)) →
        self.table.values.Perm (self.fields.map Entry.leaf ++ self.methods.map Method.entry ++
          self.classes.map Class.entry) := by
  intro point field block scale tree
  have pointMade : Obtainable (.ofEntry point) := @Obtainable.class "Point" ⟨"Point", none, .empty⟩ rfl
  have fieldMade : Obtainable (.ofEntry field) := @Obtainable.variable "x" .int ⟨"x", .int⟩ rfl
  have blockMade : Obtainable (.ofEntry block) :=
    @Obtainable.block "block#0" ⟨.nested (.block "block#0"), .empty⟩ rfl
  have scaleMade : Obtainable (.ofEntry scale) := by
    have method := @Obtainable.method "scale" .void ⟨"scale", .void, 0, .empty⟩ rfl
    have parameter := @Obtainable.variable "by" .float ⟨"by", .float⟩ rfl
    exact method.run [.bindParameter ⟨"by", .float⟩, .at [] (.bind "body" block)]
      (by simp [Operation.brought?, Act.brought?, parameter, blockMade])
  have obtained : Obtainable tree :=
    (@Obtainable.program "Main" ⟨.program "Main", .empty⟩ rfl).run _
      (by simp [Operation.brought?, Act.brought?, pointMade, fieldMade, blockMade, scaleMade])
  exact ⟨obtained, obtainable_wellFormed tree obtained⟩

end SymbolTable
