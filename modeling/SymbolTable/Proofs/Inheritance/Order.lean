import SymbolTable.Proofs.Inheritance.Alike
import SymbolTable.Proofs.Inheritance.Growth
import SymbolTable.Proofs.Registry

/-!
Declarations in any order. An analysis registers names and declares classes in
one program, in whatever order they come; a superclass is referred to by the
number its name has then. What comes of it is a program that presents the
lineages of the classes declared, and so neither the order of the declarations
nor the numbers they were given matter to the inheritance check.
-/
namespace SymbolTable

structure Declaration extends Lineage where
  members : Table Entry

inductive Intake where
  | register (name : String)
  | declare (declaration : Declaration) (span : Span)

def Intake.declaration? : Intake → Option Declaration
  | .register _ => none
  | .declare declaration _ => some declaration

def Intake.registers : Intake → List String
  | .register name => [name]
  | .declare declaration _ => declaration.super?.toList

def ClassRegistry.refer (registry : ClassRegistry) : Option String → Option ClassId × ClassRegistry
  | none => (none, registry)
  | some super =>
      let (id, registry) := registry.register super
      (some id, registry)

def Workspace.take (workspace : Workspace) : Intake → Workspace
  | .register name => workspace.after (.register name)
  | .declare declaration span =>
      let (super?, registry) := workspace.registry.refer declaration.super?
      let self : Class := ⟨declaration.name, super?, declaration.members⟩
      Workspace.after ⟨registry, workspace.tree⟩ (.operate (.at [] (.declare self.entry span)))

def analyse (title : String) (intakes : List Intake) : Workspace :=
  intakes.foldl Workspace.take ⟨.empty, .program title .empty⟩

def declarations (intakes : List Intake) : List Declaration :=
  intakes.filterMap Intake.declaration?

def lineages (intakes : List Intake) : List Lineage :=
  (declarations intakes).map Declaration.toLineage

def Declaration.made (declaration : Declaration) (registry : ClassRegistry) : Class :=
  ⟨declaration.name, declaration.super?.bind registry.idOf?, declaration.members⟩

def Declaration.binding (registry : ClassRegistry) (declaration : Declaration) : String × Entry :=
  (declaration.name, (declaration.made registry).entry)

/-- The program binds what was declared, and every superclass is registered. -/
structure Workspace.Holds (title : String) (declared : List Declaration) (workspace : Workspace) :
    Prop where
  tree : workspace.tree =
    .program title ⟨declared.map (Declaration.binding workspace.registry), none⟩
  referred : ∀ declaration ∈ declared, ∀ super, declaration.super? = some super →
    super ∈ workspace.registry.names

namespace ClassRegistry

theorem refer_registers (registry : ClassRegistry) (super? : Option String) :
    (registry.refer super?).2 = registry.registerAll super?.toList := by
  cases super? <;> rfl

theorem refer_number (registry : ClassRegistry) (super? : Option String) :
    (registry.refer super?).1 = super?.bind (registry.refer super?).2.idOf? := by
  cases super? with
  | none => rfl
  | some super => exact (registry.idOf_register super).symm

theorem refer_grown (registry : ClassRegistry) (super? : Option String) :
    registry.names <+: (registry.refer super?).2.names := by
  cases super? with
  | none => exact List.prefix_refl _
  | some super => exact registry.register_grown super

end ClassRegistry

/-- A class keeps its superclass number once that is given out. -/
theorem Declaration.made_grown {before after : ClassRegistry} (grown : before.names <+: after.names)
    (declaration : Declaration)
    (referred : ∀ super, declaration.super? = some super → super ∈ before.names) :
    declaration.made after = declaration.made before := by
  have same : declaration.super?.bind after.idOf? = declaration.super?.bind before.idOf? := by
    cases super : declaration.super? with
    | none => rfl
    | some name =>
        obtain ⟨id, found⟩ := before.idOf_known name (referred name super)
        rw [Option.bind_some, Option.bind_some, found, ClassRegistry.idOf_grown grown found]
  rw [made, made, same]

theorem Declaration.made_lineage {registry : ClassRegistry} (fits : registry.size ≤ UInt32.size)
    (declaration : Declaration)
    (referred : ∀ super, declaration.super? = some super → super ∈ registry.names) :
    declaration.toLineage.Of registry (declaration.made registry) := by
  refine ⟨rfl, ?_⟩
  rw [made]
  cases super : declaration.super? with
  | none => rfl
  | some name =>
      obtain ⟨id, found⟩ := registry.idOf_known name (referred name super)
      rw [Option.bind_some, found, Option.map_some, Option.map_some,
        registry.nameOf_idOf fits name id found]

namespace Workspace

variable {title : String} {declared : List Declaration} {workspace : Workspace}

theorem Holds.grown (holds : workspace.Holds title declared) {registry : ClassRegistry}
    (grown : workspace.registry.names <+: registry.names) :
    Holds title declared ⟨registry, workspace.tree⟩ := by
  constructor
  · rw [holds.tree]
    congr 2
    apply List.map_congr_left
    intro declaration member
    rw [Declaration.binding, Declaration.binding,
      declaration.made_grown grown (holds.referred declaration member)]
  · intro declaration member super above
    exact grown.subset (holds.referred declaration member super above)

/-- A class is declared behind the others if its name is new. -/
theorem Holds.declare (holds : workspace.Holds title declared) (declaration : Declaration)
    (span : Span) (named : declaration.name ≠ "")
    (fresh : declaration.name ∉ declared.map (·.name))
    (referred : ∀ super, declaration.super? = some super → super ∈ workspace.registry.names) :
    (workspace.after (.operate
      (.at [] (.declare (declaration.made workspace.registry).entry span)))).Holds title
      (declared ++ [declaration]) := by
  let table : Table Entry := ⟨declared.map (Declaration.binding workspace.registry), none⟩
  have free : Scope.lookup? ⟨.program title, table⟩ declaration.name = none := by
    refine (table.lookup_none_iff declaration.name).mpr ?_
    simpa [Table.names, table, Declaration.binding, Function.comp_def] using fresh
  have bound := Scope.bind_free ⟨.program title, table⟩ declaration.name
    (declaration.made workspace.registry).entry rfl named free
  have performed : (workspace.after (.operate
      (.at [] (.declare (declaration.made workspace.registry).entry span)))).tree =
      .program title (table.push declaration.name (declaration.made workspace.registry).entry) := by
    rw [after, holds.tree]
    simp only [Tree.perform, Tree.edit, Tree.scope?, Scope.edit, Act.on, Scope.declare]
    rw [show (declaration.made workspace.registry).entry.name = declaration.name from rfl, bound]
    rfl
  constructor
  · rw [performed]
    simp [table, Table.push, Declaration.binding, after]
  · intro other member super above
    rcases List.mem_append.mp member with old | new
    · exact holds.referred other old super above
    · rw [List.mem_singleton] at new
      exact referred super (new ▸ above)

theorem Holds.take (holds : workspace.Holds title declared) (intake : Intake)
    (fresh : ∀ declaration, intake.declaration? = some declaration →
      declaration.name ≠ "" ∧ declaration.name ∉ declared.map (·.name)) :
    (workspace.take intake).Holds title (declared ++ intake.declaration?.toList) := by
  cases intake with
  | register name =>
      rw [Intake.declaration?, Option.toList_none, List.append_nil]
      exact holds.grown (workspace.registry.register_grown name)
  | declare declaration span =>
      obtain ⟨named, new⟩ := fresh declaration rfl
      have wider := holds.grown (workspace.registry.refer_grown declaration.super?)
      have referred : ∀ super, declaration.super? = some super →
          super ∈ (workspace.registry.refer declaration.super?).2.names := by
        intro super above
        rw [ClassRegistry.refer_registers, ClassRegistry.mem_registerAll, above]
        exact .inr (List.mem_singleton_self super)
      have declared := wider.declare declaration span named new referred
      rw [Declaration.made, ← ClassRegistry.refer_number] at declared
      exact declared

theorem Holds.takeAll (holds : workspace.Holds title declared) (intakes : List Intake)
    (named : ∀ declaration ∈ declarations intakes, declaration.name ≠ "")
    (distinct : ((declared ++ declarations intakes).map (·.name)).Nodup) :
    (intakes.foldl Workspace.take workspace).Holds title (declared ++ declarations intakes) := by
  induction intakes generalizing workspace declared with
  | nil => simpa [declarations] using holds
  | cons intake rest ih =>
      have split : declarations (intake :: rest) =
          intake.declaration?.toList ++ declarations rest := by
        cases intake <;> rfl
      rw [split] at named distinct ⊢
      rw [← List.append_assoc] at distinct ⊢
      have step := holds.take intake (by
        intro declaration brought
        rw [brought, List.map_append, List.map_append, List.append_assoc] at distinct
        refine ⟨named declaration (by simp [brought]), fun old => ?_⟩
        exact (List.nodup_append.mp distinct).2.2 _ old _ (by simp) rfl)
      exact ih step (fun other member => named other (List.mem_append_right _ member)) distinct

theorem take_registers (workspace : Workspace) (intake : Intake) :
    (workspace.take intake).registry = workspace.registry.registerAll intake.registers := by
  cases intake with
  | register name => rfl
  | declare declaration span => exact workspace.registry.refer_registers declaration.super?

theorem takeAll_registers (workspace : Workspace) (intakes : List Intake) :
    (intakes.foldl Workspace.take workspace).registry =
      workspace.registry.registerAll (intakes.flatMap Intake.registers) := by
  induction intakes generalizing workspace with
  | nil => rfl
  | cons intake rest ih =>
      rw [List.foldl_cons, ih, take_registers, List.flatMap_cons, ClassRegistry.registerAll,
        ClassRegistry.registerAll, ClassRegistry.registerAll, List.foldl_append]

theorem Holds.presents (holds : workspace.Holds title declared)
    (fits : workspace.registry.size ≤ UInt32.size) (distinct : (declared.map (·.name)).Nodup) :
    ∃ scope, workspace.tree.scope? = some scope ∧
      scope.Presents workspace.registry (declared.map Declaration.toLineage) := by
  let scope : Scope :=
    ⟨.program title, ⟨declared.map (Declaration.binding workspace.registry), none⟩⟩
  have apart : scope.table.names.Nodup := by
    simpa [Table.names, scope, Declaration.binding, Function.comp_def] using distinct
  have found : ∀ declaration ∈ declared,
      scope.class? declaration.name = some (declaration.made workspace.registry) := by
    intro declaration member
    have here : declaration.binding workspace.registry ∈ scope.table.bindings :=
      List.mem_map_of_mem member
    rw [Scope.class?, Scope.lookup?, scope.table.lookup_of_mem apart _ _ here]
    rfl
  refine ⟨scope, by rw [holds.tree]; rfl, ?_, ?_, ?_⟩
  · have listed : scope.classes = declared.map fun declaration =>
        declaration.made workspace.registry := by
      simp [Scope.classes, Table.values, scope, Declaration.binding, List.filterMap_map,
        Function.comp_def, Class.entry, Entry.class?]
    rw [listed, List.filterMap_map, ← List.filterMap_eq_map]
    exact List.filterMap_congr fun declaration member => (found declaration member).symm
  · intro lineage member
    obtain ⟨declaration, inside, same⟩ := List.mem_map.mp member
    subst same
    exact ⟨_, found declaration inside,
      declaration.made_lineage fits (holds.referred declaration inside)⟩
  · intro name self bound
    obtain ⟨entry, there, _⟩ := Option.bind_eq_some_iff.mp bound
    obtain ⟨declaration, inside, same⟩ := List.mem_map.mp (scope.table.lookup_mem name entry there)
    exact ⟨declaration.toLineage, List.mem_map_of_mem inside, congrArg Prod.fst same⟩

end Workspace

/-- An analysis presents what it declares. -/
theorem analyse_presents (title : String) (intakes : List Intake)
    (named : ∀ lineage ∈ lineages intakes, lineage.name ≠ "")
    (distinct : ((lineages intakes).map Lineage.name).Nodup)
    (few : (intakes.flatMap Intake.registers).dedup.length ≤ UInt32.size) :
    ∃ scope, (analyse title intakes).tree.scope? = some scope ∧
      scope.Presents (analyse title intakes).registry (lineages intakes) := by
  have start : Workspace.Holds title [] ⟨.empty, .program title .empty⟩ := ⟨rfl, nofun⟩
  rw [lineages, List.map_map] at distinct
  have holds := start.takeAll intakes
    (fun declaration member => named _ (List.mem_map_of_mem member)) distinct
  refine holds.presents ?_ distinct
  rw [Workspace.takeAll_registers]
  exact Nat.le_trans (ClassRegistry.size_registerAll _) few

/-- What the inheritance check finds does not depend on the order of the
declarations or of the numbers. In two analyses of the same classes each class
has the same superclass chain, the verdict is the same, and what is added to the
diagnostics is the same up to order: in each, the reports on its classes in the
order in which it declared them. -/
theorem inheritance_order_independent (title title' : String) (left right : List Intake)
    (permuted : (lineages left).Perm (lineages right))
    (named : ∀ lineage ∈ lineages left, lineage.name ≠ "")
    (distinct : ((lineages left).map Lineage.name).Nodup)
    (few : (left.flatMap Intake.registers).dedup.length ≤ UInt32.size)
    (few' : (right.flatMap Intake.registers).dedup.length ≤ UInt32.size)
    (span : Span) (diagnostics diagnostics' : Diagnostics) :
    let registry := (analyse title left).registry
    let registry' := (analyse title' right).registry
    ∃ scope scope', (analyse title left).tree.scope? = some scope ∧
      (analyse title' right).tree.scope? = some scope' ∧
      (∀ lineage ∈ lineages left, ∃ self self', scope.class? lineage.name = some self ∧
        scope'.class? lineage.name = some self' ∧
        registry.superclassChain self scope = registry'.superclassChain self' scope') ∧
      (registry.checkInheritance scope span diagnostics).1 =
        (registry'.checkInheritance scope' span diagnostics').1 ∧
      ∃ report? : Lineage → Option Diagnostic,
        (registry.checkInheritance scope span diagnostics).2.all =
          diagnostics.all ++ (lineages left).filterMap report? ∧
        (registry'.checkInheritance scope' span diagnostics').2.all =
          diagnostics'.all ++ (lineages right).filterMap report? ∧
        ((lineages left).filterMap report?).Perm ((lineages right).filterMap report?) := by
  intro registry registry'
  have named' : ∀ lineage ∈ lineages right, lineage.name ≠ "" :=
    fun lineage member => named lineage (permuted.symm.subset member)
  have distinct' : ((lineages right).map Lineage.name).Nodup :=
    (permuted.map Lineage.name).nodup_iff.mp distinct
  obtain ⟨scope, owned, presents⟩ := analyse_presents title left named distinct few
  obtain ⟨scope', owned', presents'⟩ := analyse_presents title' right named' distinct' few'
  obtain ⟨problems, problems'⟩ := ClassRegistry.problems_alike presents presents' permuted span
  have reports := permuted.filterMap (registry.reportOn scope span)
  refine ⟨scope, scope', owned, owned', ?_, ?_, registry.reportOn scope span, ?_, ?_, reports⟩
  · intro lineage member
    obtain ⟨self, self', bound, bound', _, chains, _⟩ :=
      ClassRegistry.chain_alike presents presents' permuted member
    exact ⟨self, self', bound, bound', chains⟩
  · rw [ClassRegistry.checkInheritance, ClassRegistry.checkInheritance, problems, problems']
    exact reports.isEmpty_eq
  · rw [ClassRegistry.checkInheritance, ClassRegistry.add_all, problems]
  · rw [ClassRegistry.checkInheritance, ClassRegistry.add_all, problems']

/-- A class under a cycle beside one whose superclass is missing, declared in two
orders under different numbers. -/
theorem inheritance_order_independent_renumbered :
    let declare (name : String) (super : String) : Intake :=
      .declare ⟨⟨name, some super⟩, .empty⟩ .origin
    let left := [declare "A" "B", declare "B" "A", declare "C" "A", declare "D" "X"]
    let right := [.register "X", declare "D" "X", declare "A" "B", declare "C" "A", declare "B" "A"]
    let registry := (analyse "main" left).registry
    let registry' := (analyse "main" right).registry
    let onA := Diagnostic.located .origin .cyclicInheritance ["A"]
    let onB := Diagnostic.located .origin .cyclicInheritance ["B"]
    let onC := Diagnostic.located .origin .inheritsFromCycle ["C", "A"]
    let onD := Diagnostic.located .origin .superclassNotDeclared ["D"]
    registry.idOf? "A" = some ⟨1⟩ ∧ registry'.idOf? "A" = some ⟨2⟩ ∧
      (lineages left).Perm (lineages right) ∧
      ((lineages left).map Lineage.name).Nodup ∧
      ∃ scope scope' self', (analyse "main" left).tree.scope? = some scope ∧
        (analyse "main" right).tree.scope? = some scope' ∧ scope'.class? "C" = some self' ∧
        registry'.superclassChain self' scope' = ["A", "B"] ∧
        (registry.checkInheritance scope .origin .empty).1 =
          (registry'.checkInheritance scope' .origin .empty).1 ∧
        (registry.checkInheritance scope .origin .empty).2.all =
          [onA, onB, onC, onD] ∧
        (registry'.checkInheritance scope' .origin .empty).2.all =
          [onD, onA, onC, onB] ∧
        [onA, onB, onC, onD].map (fun report => report.message.code) =
          [2003, 2003, 2006, 2005] := by
  intro declare left right registry registry' onA onB onC onD
  have permuted : (lineages left).Perm (lineages right) := by decide
  have named : ∀ lineage ∈ lineages left, lineage.name ≠ "" := by decide
  have distinct : ((lineages left).map Lineage.name).Nodup := by decide
  have few : (left.flatMap Intake.registers).dedup.length ≤ UInt32.size := by decide
  have few' : (right.flatMap Intake.registers).dedup.length ≤ UInt32.size := by decide
  obtain ⟨scope, scope', owned, owned', chains, verdict, _⟩ :=
    inheritance_order_independent "main" "main" left right permuted named distinct few few'
      .origin .empty .empty
  obtain ⟨self, self', bound, bound', same⟩ := chains ⟨"C", some "A"⟩ (by decide)
  have ended : registry.ends scope =
      [("A", .cycle "A"), ("B", .cycle "B"), ("C", .cycle "A"), ("D", .unresolved ⟨2⟩)] := by
    cases owned
    decide +kernel
  have ended' : registry'.ends scope' =
      [("D", .unresolved ⟨0⟩), ("A", .cycle "A"), ("C", .cycle "A"), ("B", .cycle "B")] := by
    cases owned'
    decide +kernel
  have listed := registry.check_ends scope .origin .empty
  have listed' := registry'.check_ends scope' .origin .empty
  rw [ended] at listed
  rw [ended'] at listed'
  refine ⟨rfl, rfl, permuted, distinct, scope, scope', self', owned, owned', bound', ?_, verdict,
    listed, listed', rfl⟩
  have start : self = ⟨"C", some ⟨1⟩, .empty⟩ := by
    cases owned
    cases bound
    rfl
  have upper : scope.class? "A" = some ⟨"A", some ⟨0⟩, .empty⟩ := by
    cases owned
    rfl
  have lower : scope.class? "B" = some ⟨"B", some ⟨1⟩, .empty⟩ := by
    cases owned
    rfl
  have back : ClassRegistry.Stops registry scope ["B", "A", "C"] ⟨"B", some ⟨1⟩, .empty⟩
      (.cycle "A") := ⟨rfl, by decide⟩
  rw [← same, start, ClassRegistry.superclassChain, ClassRegistry.walk_up rfl (by decide) upper,
    ClassRegistry.walk_up rfl (by decide) lower, ClassRegistry.walk_stops back]

end SymbolTable
