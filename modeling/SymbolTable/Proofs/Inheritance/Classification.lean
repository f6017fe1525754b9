import SymbolTable.Proofs.Inheritance.Trail
import SymbolTable.Proofs.Message
import SymbolTable.Proofs.Table

/-!
What the inheritance check finds, told apart from the walk: a class is on a
cycle if some trail leads back to it, it enters a cycle at the first class on
its way that is on one, and otherwise its way ends at a root or at a link that
leads out of the scope. Where classes are bound under their own names, the check
reports exactly this.
-/
namespace SymbolTable

def Scope.classes (scope : Scope) : List Class :=
  scope.table.values.filterMap Entry.class?

def Scope.OwnNamed (scope : Scope) : Prop :=
  ∀ name self, (name, Class.entry self) ∈ scope.table.bindings → name = self.name

namespace ClassRegistry

section
variable (registry : ClassRegistry) (scope : Scope)

def OnCycle (self : Class) : Prop :=
  ∃ names, names ≠ [] ∧ Trail registry scope self names self

/-- `first` is on a cycle, and no class nearer to `self` on its way is. -/
def EntersCycle (self first : Class) : Prop :=
  ∃ names, Trail registry scope self names first ∧ OnCycle registry scope first ∧
    ∀ nearer middle, Trail registry scope self nearer middle → nearer.length < names.length →
      ¬ OnCycle registry scope middle

def LeavesScope (self : Class) : Prop :=
  ∃ names last id, Trail registry scope self names last ∧ last.super? = some id ∧
    (registry.nameOf? id = none ∨
      ∃ name, registry.nameOf? id = some name ∧ scope.class? name = none)

def ReachesRoot (self : Class) : Prop :=
  ∃ names last, Trail registry scope self names last ∧ last.super? = none

def Final (last : Class) : Prop :=
  ∀ name next, registry.link? last = some name → scope.class? name ≠ some next

end

variable {registry : ClassRegistry} {scope : Scope}

theorem class_own (own : scope.OwnNamed) {name : String} {self : Class}
    (bound : scope.class? name = some self) : name = self.name := by
  obtain ⟨entry, found, same⟩ := Option.bind_eq_some_iff.mp bound
  apply own name self
  rw [← entry.class_some self same]
  exact scope.table.lookup_mem name entry found

theorem class_home (distinct : scope.table.names.Nodup) (own : scope.OwnNamed) {self : Class}
    (member : self ∈ scope.classes) : scope.class? self.name = some self := by
  obtain ⟨entry, inside, same⟩ := List.mem_filterMap.mp member
  obtain ⟨binding, bound, value⟩ := List.mem_map.mp inside
  have here : (binding.1, self.entry) ∈ scope.table.bindings := by
    rw [← entry.class_some self same, ← value]
    exact bound
  have named := own binding.1 self here
  have found := scope.table.lookup_of_mem distinct binding.1 self.entry here
  rw [Scope.class?, Scope.lookup?, ← named, found]
  rfl

theorem Trail.named (own : scope.OwnNamed) {first last : Class} {names : List String}
    (trail : Trail registry scope first names last) (proper : names ≠ []) :
    last.name ∈ names := by
  induction trail with
  | here => contradiction
  | @up self next last name names link bound onward ih =>
      cases onward with
      | here =>
          rw [class_own own bound]
          exact List.mem_singleton_self _
      | up => exact List.mem_cons_of_mem _ (ih (by simp))

/-- If the last class of a trail links back into it, no trail from its start
leaves its names. -/
theorem Trail.confined {middle last : Class} {remaining : List String} {name : String}
    (around : Trail registry scope middle remaining last)
    (link : registry.link? last = some name) (back : name ∈ remaining)
    {start other : Class} {behind ahead : List String}
    (trail : Trail registry scope start ahead other)
    (joined : Trail registry scope start behind last) (within : behind <:+ remaining) :
    ∀ passed ∈ ahead, passed ∈ remaining := by
  induction trail generalizing behind with
  | here => nofun
  | @up self next other step names link' bound onward ih =>
      cases joined with
      | here =>
          -- The step taken is the one back, and what follows it there is a part
          -- of `around` again.
          rw [link] at link'
          cases link'
          obtain ⟨front, rest, split⟩ := List.append_of_mem back
          obtain ⟨again, same, _, onto⟩ := Trail.bound (split ▸ around)
          rw [bound] at same
          cases same
          have kept := ih onto ⟨front ++ [name], by simp [split]⟩
          intro passed member
          rcases List.mem_cons.mp member with here | later
          · exact here ▸ back
          · exact kept passed later
      | @up _ next' _ step' behind link'' bound' joined =>
          rw [link'] at link''
          cases link''
          rw [bound] at bound'
          cases bound'
          have kept := ih joined ((List.suffix_cons _ _).trans within)
          intro passed member
          rcases List.mem_cons.mp member with here | later
          · exact here ▸ within.subset List.mem_cons_self
          · exact kept passed later

/-- A walk that comes back to a name has entered a cycle at the class of that
name. -/
theorem cycle_entered (own : scope.OwnNamed) {self last : Class} {names : List String}
    {name : String} (home : scope.class? self.name = some self)
    (trail : Trail registry scope self names last) (distinct : names.Nodup)
    (fresh : self.name ∉ names) (link : registry.link? last = some name)
    (passed : name ∈ names ∨ name = self.name) :
    ∃ first, EntersCycle registry scope self first ∧ first.name = name := by
  rcases passed with inside | start
  · obtain ⟨before, after, split⟩ := List.append_of_mem inside
    obtain ⟨first, bound, upto, around⟩ := Trail.bound (split ▸ trail)
    refine ⟨first, ⟨before ++ [name], upto, ?_, ?_⟩, (class_own own bound).symm⟩
    · exact ⟨after ++ [name], by simp, around.append (.up link bound .here)⟩
    · rintro nearer middle short near ⟨loop, proper, returns⟩
      -- What is left of the walk from `middle` on holds `name`, so no trail
      -- from there leaves it, and a loop would pass the name of `middle` again.
      have shorter : nearer.length ≤ before.length := by
        rw [List.length_append, List.length_singleton] at near
        omega
      obtain ⟨remaining, rest, onward⟩ := short.onward trail (by
        rw [split, List.length_append]
        omega)
      have back : name ∈ remaining := by
        have tail := congrArg (List.drop nearer.length) (rest.symm.trans split)
        rw [List.drop_left, List.drop_append_of_le_length shorter] at tail
        simp [tail]
      have again : middle.name ∈ remaining :=
        onward.confined link back returns onward (List.suffix_refl _) _ (returns.named own proper)
      cases nearer with
      | nil =>
          cases short
          exact fresh (by simpa [rest] using again)
      | cons step steps =>
          have once := short.named own (by simp)
          rw [rest, List.nodup_append] at distinct
          exact distinct.2.2 _ once _ again rfl
  · subst start
    have closes : OnCycle registry scope self :=
      ⟨names ++ [self.name], by simp, trail.append (.up link home .here)⟩
    exact ⟨self, ⟨[], .here, closes, nofun⟩, rfl⟩

theorem OnCycle.endless {self : Class} (cyclic : OnCycle registry scope self) (bound : Nat) :
    ∃ names, Trail registry scope self names self ∧ bound ≤ names.length := by
  obtain ⟨loop, proper, returns⟩ := cyclic
  induction bound with
  | zero => exact ⟨loop, returns, Nat.zero_le _⟩
  | succ bound ih =>
      obtain ⟨names, trail, longer⟩ := ih
      refine ⟨loop ++ names, returns.append trail, ?_⟩
      have positive := List.length_pos_iff.mpr proper
      rw [List.length_append]
      omega

theorem Final.ends {last other : Class} {names : List String} (final : Final registry scope last)
    (trail : Trail registry scope last names other) : names = [] := by
  cases trail with
  | here => rfl
  | up link bound => exact absurd bound (final _ _ link)

theorem Final.unique {self last other : Class} {names more : List String}
    (here : Final registry scope last) (there : Final registry scope other)
    (left : Trail registry scope self names last)
    (right : Trail registry scope self more other) : last = other := by
  rcases Nat.le_total names.length more.length with shorter | longer
  · obtain ⟨rest, same, onward⟩ := left.onward right shorter
    cases here.ends onward
    rw [List.append_nil] at same
    exact left.unique (same ▸ right)
  · obtain ⟨rest, same, onward⟩ := right.onward left longer
    cases there.ends onward
    rw [List.append_nil] at same
    exact (right.unique (same ▸ left)).symm

/-- No way both ends and leads into a cycle. -/
theorem EntersCycle.not_final {self first last : Class} {names : List String}
    (enters : EntersCycle registry scope self first)
    (trail : Trail registry scope self names last) : ¬ Final registry scope last := by
  intro final
  obtain ⟨upto, into, cyclic, _⟩ := enters
  -- Round the cycle there is a way longer than the one that ends.
  obtain ⟨loop, returns, longer⟩ := cyclic.endless (names.length + 1)
  obtain ⟨rest, same, onward⟩ := trail.onward (into.append returns) (by
    rw [List.length_append]
    omega)
  cases final.ends onward
  have sizes := congrArg List.length same
  rw [List.length_append, List.append_nil] at sizes
  omega

theorem EntersCycle.unique {self first other : Class} (left : EntersCycle registry scope self first)
    (right : EntersCycle registry scope self other) : first = other := by
  obtain ⟨names, trail, cyclic, nearest⟩ := left
  obtain ⟨more, trail', cyclic', nearest'⟩ := right
  rcases Nat.lt_trichotomy names.length more.length with nearer | same | farther
  · exact absurd cyclic (nearest' names first trail nearer)
  · obtain ⟨rest, split, onward⟩ := trail.onward trail' (Nat.le_of_eq same)
    have nothing : rest = [] := by
      have sizes := congrArg List.length split
      rw [List.length_append] at sizes
      exact List.eq_nil_of_length_eq_zero (by omega)
    subst nothing
    cases onward
    rfl
  · exact absurd cyclic' (nearest more other trail' farther)

theorem final_root {last : Class} (root : last.super? = none) : Final registry scope last := by
  intro name next link
  simp [link?, root] at link

theorem final_unresolved {last : Class} {id : ClassId} (super : last.super? = some id)
    (leaves : registry.nameOf? id = none ∨
      ∃ name, registry.nameOf? id = some name ∧ scope.class? name = none) :
    Final registry scope last := by
  intro name next link bound
  rw [link?, super, Option.bind_some] at link
  rcases leaves with unknown | ⟨other, named, unbound⟩
  · cases unknown.symm.trans link
  · cases named.symm.trans link
    cases unbound.symm.trans bound

inductive Outcome (registry : ClassRegistry) (scope : Scope) (self : Class) : ChainEnd → Prop where
  | root : ReachesRoot registry scope self → Outcome registry scope self .root
  | unresolved {id} : LeavesScope registry scope self → Outcome registry scope self (.unresolved id)
  | cycle {first} : EntersCycle registry scope self first →
      Outcome registry scope self (.cycle first.name)

theorem chainEnd_outcome (own : scope.OwnNamed) {self : Class}
    (home : scope.class? self.name = some self) :
    Outcome registry scope self (registry.chainEnd self scope) := by
  obtain ⟨names, last, stop, walked, trail, distinct, fresh, stops⟩ :=
    walk_follows registry scope [self.name] self
  rw [chainEnd, walked]
  cases stop with
  | root => exact .root ⟨names, last, trail, stops⟩
  | unresolved id =>
      obtain ⟨super, leaves⟩ := stops
      refine .unresolved ⟨names, last, id, trail, super, ?_⟩
      cases named : registry.nameOf? id with
      | none => exact .inl rfl
      | some name => exact .inr ⟨name, rfl, (leaves name named).2⟩
  | cycle name =>
      obtain ⟨link, passed⟩ := stops
      have start : self.name ∉ names := fun member => fresh _ member (List.mem_singleton_self _)
      obtain ⟨first, enters, named⟩ := cycle_entered own home trail distinct start link
        (by simpa using passed)
      exact named ▸ .cycle enters

theorem ReachesRoot.not_leaves {self : Class} (reaches : ReachesRoot registry scope self) :
    ¬ LeavesScope registry scope self := by
  rintro ⟨more, other, id, trail', super, leaves⟩
  obtain ⟨names, last, trail, root⟩ := reaches
  have same := (final_root root).unique (final_unresolved super leaves) trail trail'
  rw [same, super] at root
  cases root

theorem ReachesRoot.not_enters {self first : Class} (reaches : ReachesRoot registry scope self) :
    ¬ EntersCycle registry scope self first := by
  intro enters
  obtain ⟨names, last, trail, root⟩ := reaches
  exact enters.not_final trail (final_root root)

theorem LeavesScope.not_enters {self first : Class} (leaves : LeavesScope registry scope self) :
    ¬ EntersCycle registry scope self first := by
  intro enters
  obtain ⟨names, last, id, trail, super, away⟩ := leaves
  exact enters.not_final trail (final_unresolved super away)

theorem OnCycle.enters {self : Class} (cyclic : OnCycle registry scope self) :
    EntersCycle registry scope self self :=
  ⟨[], .here, cyclic, nofun⟩

theorem EntersCycle.on_cycle {self first : Class} (enters : EntersCycle registry scope self first) :
    OnCycle registry scope first := by
  obtain ⟨_, _, cyclic, _⟩ := enters
  exact cyclic

theorem Trail.home (own : scope.OwnNamed) {self last : Class} {names : List String}
    (trail : Trail registry scope self names last) (home : scope.class? self.name = some self) :
    scope.class? last.name = some last := by
  induction trail with
  | here => exact home
  | up link bound onward ih => exact ih (class_own own bound ▸ bound)

/-- Classes on one way with one name are one class. -/
theorem EntersCycle.named (own : scope.OwnNamed) {self first : Class}
    (home : scope.class? self.name = some self) (enters : EntersCycle registry scope self first)
    (same : first.name = self.name) : first = self := by
  obtain ⟨names, trail, _, _⟩ := enters
  have there := trail.home own home
  rw [same, home] at there
  cases there
  rfl

theorem Outcome.root_iff {self : Class} {stop : ChainEnd}
    (outcome : Outcome registry scope self stop) :
    stop = .root ↔ ReachesRoot registry scope self := by
  cases outcome with
  | root reaches => exact iff_of_true rfl reaches
  | unresolved leaves => exact iff_of_false nofun fun reaches => reaches.not_leaves leaves
  | cycle enters => exact iff_of_false nofun fun reaches => reaches.not_enters enters

theorem Outcome.unresolved_iff {self : Class} {stop : ChainEnd}
    (outcome : Outcome registry scope self stop) :
    (∃ id, stop = .unresolved id) ↔ LeavesScope registry scope self := by
  cases outcome with
  | root reaches => exact iff_of_false nofun reaches.not_leaves
  | @unresolved id leaves => exact iff_of_true ⟨id, rfl⟩ leaves
  | cycle enters => exact iff_of_false nofun fun leaves => leaves.not_enters enters

theorem Outcome.cycle_iff {self : Class} {stop : ChainEnd}
    (outcome : Outcome registry scope self stop) (name : String) :
    stop = .cycle name ↔ ∃ first, EntersCycle registry scope self first ∧ first.name = name := by
  cases outcome with
  | root reaches =>
      refine iff_of_false nofun ?_
      rintro ⟨first, enters, _⟩
      exact reaches.not_enters enters
  | unresolved leaves =>
      refine iff_of_false nofun ?_
      rintro ⟨first, enters, _⟩
      exact leaves.not_enters enters
  | @cycle first enters =>
      constructor
      · intro same
        cases same
        exact ⟨first, enters, rfl⟩
      · rintro ⟨other, enters', named⟩
        rw [enters.unique enters', named]

theorem Outcome.complete {self : Class} {stop : ChainEnd}
    (outcome : Outcome registry scope self stop) :
    (∃ first, EntersCycle registry scope self first) ∨ LeavesScope registry scope self ∨
      ReachesRoot registry scope self := by
  cases outcome with
  | root reaches => exact .inr (.inr reaches)
  | unresolved leaves => exact .inr (.inl leaves)
  | cycle enters => exact .inl ⟨_, enters⟩

theorem Outcome.on_cycle_iff (own : scope.OwnNamed) {self : Class} {stop : ChainEnd}
    (home : scope.class? self.name = some self) (outcome : Outcome registry scope self stop) :
    stop = .cycle self.name ↔ OnCycle registry scope self := by
  rw [outcome.cycle_iff]
  constructor
  · rintro ⟨first, enters, same⟩
    exact enters.named own home same ▸ enters.on_cycle
  · exact fun cyclic => ⟨self, cyclic.enters, rfl⟩

theorem Outcome.entering_iff (own : scope.OwnNamed) {self : Class} {stop : ChainEnd}
    (home : scope.class? self.name = some self) (outcome : Outcome registry scope self stop)
    (entered : String) :
    stop = .cycle entered ∧ entered ≠ self.name ↔
      ¬ OnCycle registry scope self ∧
        ∃ first, EntersCycle registry scope self first ∧ first.name = entered := by
  rw [← outcome.on_cycle_iff own home, ← outcome.cycle_iff entered]
  constructor
  · rintro ⟨ended, other⟩
    refine ⟨fun closed => other ?_, ended⟩
    exact ChainEnd.cycle.inj (ended.symm.trans closed)
  · rintro ⟨unclosed, ended⟩
    exact ⟨ended, fun same => unclosed (same ▸ ended)⟩

/-- What the report on a class, and its code alone, say of the way its links lead. -/
structure Classified (registry : ClassRegistry) (scope : Scope) (span : Span) (start : Class)
    (report? : Option Diagnostic) : Prop where
  cyclic : report? = some (.located span .cyclicInheritance [start.name]) ↔
    OnCycle registry scope start
  entering : ∀ entered, report? = some (.located span .inheritsFromCycle [start.name, entered]) ↔
    ¬ OnCycle registry scope start ∧
      ∃ first, EntersCycle registry scope start first ∧ first.name = entered
  leaving : report? = some (.located span .superclassNotDeclared [start.name]) ↔
    LeavesScope registry scope start
  sound : report? = none ↔ ReachesRoot registry scope start
  complete : OnCycle registry scope start ∨ (∃ first, EntersCycle registry scope start first) ∨
    LeavesScope registry scope start ∨ ReachesRoot registry scope start
  cyclic_code : Coded report? 2003 ↔ OnCycle registry scope start
  entering_code : Coded report? 2006 ↔
    ¬ OnCycle registry scope start ∧ ∃ first, EntersCycle registry scope start first
  leaving_code : Coded report? 2005 ↔ LeavesScope registry scope start
  codes : ∀ code, Coded report? code → code ∈ [2003, 2005, 2006]

theorem unsoundness_cyclic (span : Span) (name : String) (stop : ChainEnd) :
    unsoundness span name stop = some (.located span .cyclicInheritance [name]) ↔
      stop = .cycle name := by
  cases stop with
  | root => simp [unsoundness]
  | unresolved id => simp (disch := decide) [unsoundness, Diagnostic.located_ne]
  | cycle entered =>
      by_cases same : entered = name <;>
        simp (disch := decide) [unsoundness, Diagnostic.located_ne, same]

theorem unsoundness_entering (span : Span) (name entered : String) (stop : ChainEnd) :
    unsoundness span name stop = some (.located span .inheritsFromCycle [name, entered]) ↔
      stop = .cycle entered ∧ entered ≠ name := by
  cases stop with
  | root => simp [unsoundness]
  | unresolved id => simp (disch := decide) [unsoundness, Diagnostic.located_ne]
  | cycle other =>
      by_cases same : other = name
      · subst same
        simpa (disch := decide) [unsoundness, Diagnostic.located_ne] using Eq.symm
      · rw [unsoundness, if_neg same, Option.some.injEq, ChainEnd.cycle.injEq]
        constructor
        · intro told
          -- Both have one heading, so it is up to the texts to tell the names apart.
          have equal := Message.inheritsFromCycle_inj name other entered
            (congrArg Diagnostic.text told)
          exact ⟨equal, equal ▸ same⟩
        · rintro ⟨equal, _⟩
          rw [equal]

theorem unsoundness_leaving (span : Span) (name : String) (stop : ChainEnd) :
    unsoundness span name stop = some (.located span .superclassNotDeclared [name]) ↔
      ∃ id, stop = .unresolved id := by
  cases stop with
  | root => simp [unsoundness]
  | unresolved id => simp [unsoundness]
  | cycle entered =>
      by_cases same : entered = name <;>
        simp (disch := decide) [unsoundness, Diagnostic.located_ne, same]

theorem unsoundness_none (span : Span) (name : String) (stop : ChainEnd) :
    unsoundness span name stop = none ↔ stop = .root := by
  cases stop with
  | root => simp [unsoundness]
  | unresolved id => simp [unsoundness]
  | cycle entered => by_cases same : entered = name <;> simp [unsoundness, same]

/-- The code alone tells how the chain ends, but for the names. -/
theorem unsoundness_coded (span : Span) (name : String) (stop : ChainEnd) (code : Nat) :
    Coded (unsoundness span name stop) code ↔
      code = 2003 ∧ stop = .cycle name ∨
      code = 2006 ∧ (∃ entered, stop = .cycle entered ∧ entered ≠ name) ∨
      code = 2005 ∧ ∃ id, stop = .unresolved id := by
  cases stop with
  | root => simp [unsoundness]
  | unresolved id => simp [unsoundness, Message.superclassNotDeclared, @eq_comm _ _ code]
  | cycle entered =>
      by_cases same : entered = name <;>
        simp [unsoundness, same, Message.cyclicInheritance, Message.inheritsFromCycle,
          @eq_comm _ _ code]

theorem unsoundness_classified (own : scope.OwnNamed) (span : Span) {self : Class}
    (home : scope.class? self.name = some self) :
    Classified registry scope span self
      (unsoundness span self.name (registry.chainEnd self scope)) := by
  have outcome : Outcome registry scope self (registry.chainEnd self scope) :=
    chainEnd_outcome own home
  have cyclic := outcome.on_cycle_iff own home
  have entering := outcome.entering_iff own home
  have coded := unsoundness_coded span self.name (registry.chainEnd self scope)
  constructor
  case cyclic => rw [unsoundness_cyclic, cyclic]
  case entering =>
    intro entered
    rw [unsoundness_entering, entering]
  case leaving => rw [unsoundness_leaving, outcome.unresolved_iff]
  case sound => rw [unsoundness_none, outcome.root_iff]
  case complete => exact .inr outcome.complete
  case cyclic_code => simp [coded, cyclic]
  case entering_code =>
    simp only [coded, entering, exists_and_left]
    rw [exists_comm]
    simp
  case leaving_code => simp [coded, outcome.unresolved_iff]
  case codes =>
    intro code told
    rcases (coded code).mp told with ⟨rfl, _⟩ | ⟨rfl, _⟩ | ⟨rfl, _⟩ <;> simp

theorem add_all (diagnostics : Diagnostics) (more : List Diagnostic) :
    (more.foldl Diagnostics.add diagnostics).all = diagnostics.all ++ more := by
  induction more generalizing diagnostics with
  | nil => exact (List.append_nil _).symm
  | cons diagnostic rest ih =>
      rw [List.foldl_cons, ih]
      simp [Diagnostics.add]

/-- All that the report on a class depends on, for every class of a scope. -/
def ends (registry : ClassRegistry) (scope : Scope) : List (String × ChainEnd) :=
  scope.classes.map fun self => (self.name, registry.chainEnd self scope)

theorem check_ends (registry : ClassRegistry) (scope : Scope) (span : Span)
    (diagnostics : Diagnostics) :
    (registry.checkInheritance scope span diagnostics).2.all =
      diagnostics.all ++ (registry.ends scope).filterMap fun (name, stop) =>
        unsoundness span name stop := by
  rw [checkInheritance, add_all, ends, List.filterMap_map]
  rfl

/-- The inheritance check classifies every class: behind the diagnostics there
were stands the report on each class, in the order of binding, and the answer
says whether all classes reach a root. -/
theorem check_inheritance_classifies (registry : ClassRegistry) (scope : Scope) (span : Span)
    (diagnostics : Diagnostics) (distinct : scope.table.names.Nodup) (own : scope.OwnNamed) :
    ∃ report? : Class → Option Diagnostic,
      (∀ self ∈ scope.classes, Classified registry scope span self (report? self)) ∧
      (registry.checkInheritance scope span diagnostics).2.all =
        diagnostics.all ++ scope.classes.filterMap report? ∧
      ((registry.checkInheritance scope span diagnostics).1 = true ↔
        ∀ self ∈ scope.classes, ReachesRoot registry scope self) ∧
      ((registry.checkInheritance scope span diagnostics).1 = true ↔
        (registry.checkInheritance scope span diagnostics).2 = diagnostics) := by
  have classified : ∀ self ∈ scope.classes, Classified registry scope span self
      (unsoundness span self.name (registry.chainEnd self scope)) :=
    fun self member => unsoundness_classified own span (class_home distinct own member)
  have added : (registry.checkInheritance scope span diagnostics).2.all =
      diagnostics.all ++ registry.inheritanceProblems scope span :=
    add_all diagnostics (registry.inheritanceProblems scope span)
  refine ⟨fun self => unsoundness span self.name (registry.chainEnd self scope), classified,
    added, ?_, ?_⟩
  · rw [checkInheritance, List.isEmpty_iff, inheritanceProblems, List.filterMap_eq_nil_iff]
    constructor
    · intro nothing self member
      exact (classified self member).sound.mp (nothing self member)
    · intro rooted self member
      exact (classified self member).sound.mpr (rooted self member)
  · constructor
    · intro nothing
      rw [checkInheritance, List.isEmpty_iff] at nothing
      rw [checkInheritance, nothing]
      rfl
    · intro unchanged
      rw [unchanged] at added
      have nothing := List.append_cancel_left ((List.append_nil _).trans added)
      rw [checkInheritance, ← nothing]
      rfl

/-- Two classes on a cycle, one that enters it, one that is its own superclass,
one whose superclass is a variable, one whose superclass is unknown, and a root. -/
theorem check_inheritance_classifies_cycles :
    let registry : ClassRegistry := ⟨["A", "B", "D", "v"]⟩
    let declare (name : String) (super? : Option ClassId) : String × Entry :=
      (name, .scope (.class name super?) .empty)
    let scope : Scope := ⟨.program "main", ⟨[declare "A" (some ⟨1⟩), declare "B" (some ⟨0⟩),
      declare "C" (some ⟨0⟩), declare "D" (some ⟨2⟩), ("v", .leaf ⟨"v", .int⟩),
      declare "E" (some ⟨3⟩), declare "F" (some ⟨99⟩), declare "G" none], none⟩⟩
    let checked := registry.checkInheritance scope ⟨0, 0⟩ .empty
    scope.table.names.Nodup ∧ scope.OwnNamed ∧ checked.1 = false ∧
      checked.2.all.map (fun report => report.message.code) =
        [2003, 2003, 2006, 2003, 2005, 2005] ∧
      checked.2.all = [.located ⟨0, 0⟩ .cyclicInheritance ["A"],
        .located ⟨0, 0⟩ .cyclicInheritance ["B"], .located ⟨0, 0⟩ .inheritsFromCycle ["C", "A"],
        .located ⟨0, 0⟩ .cyclicInheritance ["D"], .located ⟨0, 0⟩ .superclassNotDeclared ["E"],
        .located ⟨0, 0⟩ .superclassNotDeclared ["F"]] ∧
      ∃ report? : Class → Option Diagnostic,
        (∀ self ∈ scope.classes, Classified registry scope ⟨0, 0⟩ self (report? self)) ∧
        checked.2.all = scope.classes.filterMap report? := by
  intro registry declare scope checked
  have distinct : scope.table.names.Nodup := by decide
  have own : scope.OwnNamed := by
    intro name self bound
    simp only [scope, declare, Class.entry, List.mem_cons, List.not_mem_nil] at bound
    grind
  obtain ⟨report?, classified, added, _⟩ :=
    check_inheritance_classifies registry scope ⟨0, 0⟩ .empty distinct own
  have ended : registry.ends scope = [("A", .cycle "A"), ("B", .cycle "B"), ("C", .cycle "A"),
      ("D", .cycle "D"), ("E", .unresolved ⟨3⟩), ("F", .unresolved ⟨99⟩), ("G", .root)] := by
    decide +kernel
  have reports : checked.2.all = _ := registry.check_ends scope ⟨0, 0⟩ .empty
  rw [ended] at reports
  refine ⟨distinct, own, by decide +kernel, ?_, ?_, report?, classified, added⟩
  · rw [reports]
    rfl
  · rw [reports]
    rfl

end ClassRegistry
end SymbolTable
