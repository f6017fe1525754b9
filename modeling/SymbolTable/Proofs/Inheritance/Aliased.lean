import SymbolTable.Proofs.Inheritance.Classification
import SymbolTable.Proofs.Operation

/-!
Aliased classes. A class may be bound under a name that is not its own, and links
lead to what a name is bound to, so whether the superclasses of a class come to an
end is a matter of binding names alone. A walk, however, starts out from the class's
own name. It takes a link to that name for a way back, even if the name stands for
another class or for none, and so a class may be reported on a cycle although its
superclasses end.
-/
namespace SymbolTable.ClassRegistry

section
variable (registry : ClassRegistry) (scope : Scope)

/-- The name of the superclass of what a name is bound to, if a class is bound under
it in turn. -/
def parent? (name : String) : Option String :=
  ((scope.class? name).bind registry.link?).bind fun up => (scope.class? up).map fun _ => up

def ancestor? : Nat → String → Option String
  | 0, name => some name
  | steps + 1, name => (registry.parent? scope name).bind (ancestor? steps)

def Endless (name : String) : Prop :=
  ∀ steps, (registry.ancestor? scope steps name).isSome

/-- Some class on the way of `self` links to the name that is `self`'s own. -/
def NamesOwn (self : Class) : Prop :=
  ∃ names last, Trail registry scope self names last ∧ registry.link? last = some self.name

def ReportsCycle (report? : Option Diagnostic) : Prop :=
  ∃ diagnostic, report? = some diagnostic ∧
    (diagnostic.message.code = 2003 ∨ diagnostic.message.code = 2006)

end

/-- A report at `span` that calls a class by the class's own name. -/
inductive Tells (span : Span) (self : Class) : Diagnostic → Prop where
  | cyclic : Tells span self (.located span .cyclicInheritance [self.name])
  | entering (entered : String) :
      Tells span self (.located span .inheritsFromCycle [self.name, entered])
  | leaving : Tells span self (.located span .superclassNotDeclared [self.name])

variable {registry : ClassRegistry} {scope : Scope}

theorem parent_some {name up : String} {self : Class} (bound : scope.class? name = some self) :
    registry.parent? scope name = some up ↔
      registry.link? self = some up ∧ ∃ next, scope.class? up = some next := by
  rw [parent?, bound, Option.bind_some, Option.bind_eq_some_iff]
  constructor
  · rintro ⟨found, link, mapped⟩
    obtain ⟨next, above, same⟩ := Option.map_eq_some_iff.mp mapped
    subst same
    exact ⟨link, next, above⟩
  · rintro ⟨link, next, above⟩
    exact ⟨up, link, by rw [above, Option.map_some]⟩

/-- There is an ancestor if there is a trail of that length. -/
theorem ancestor_isSome {name : String} {self : Class} (bound : scope.class? name = some self)
    (steps : Nat) : (registry.ancestor? scope steps name).isSome ↔
      ∃ names last, Trail registry scope self names last ∧ names.length = steps := by
  induction steps generalizing name self with
  | zero => exact iff_of_true rfl ⟨[], self, .here, rfl⟩
  | succ steps ih =>
      rw [ancestor?]
      constructor
      · intro reached
        obtain ⟨last, found⟩ := Option.isSome_iff_exists.mp reached
        obtain ⟨up, parent, above⟩ := Option.bind_eq_some_iff.mp found
        obtain ⟨link, next, onward⟩ := (parent_some bound).mp parent
        obtain ⟨names, last, trail, count⟩ := (ih onward).mp (by rw [above, Option.isSome_some])
        exact ⟨up :: names, last, .up link onward trail, by rw [List.length_cons, count]⟩
      · rintro ⟨names, last, trail, count⟩
        cases trail with
        | here => cases count
        | @up _ next _ up names link onward trail =>
            rw [(parent_some bound).mpr ⟨link, next, onward⟩, Option.bind_some]
            exact (ih onward).mpr ⟨names, last, trail, Nat.succ.inj count⟩

/-- Round a cycle there are trails of any length. -/
theorem OnCycle.endless_below {self first : Class} {names : List String}
    (cyclic : OnCycle registry scope first) (upto : Trail registry scope self names first)
    {name : String} (bound : scope.class? name = some self) : Endless registry scope name := by
  intro steps
  obtain ⟨loop, returns, longer⟩ := cyclic.endless steps
  have whole := upto.append returns
  rw [← List.take_append_drop steps (names ++ loop)] at whole
  obtain ⟨middle, start, _⟩ := whole.split
  refine (ancestor_isSome bound steps).mpr ⟨_, middle, start, ?_⟩
  rw [List.length_take, List.length_append]
  omega

theorem Endless.not_final {name : String} {self last : Class} {names : List String}
    (endless : Endless registry scope name) (bound : scope.class? name = some self)
    (trail : Trail registry scope self names last) : ¬ Final registry scope last := by
  intro final
  obtain ⟨more, other, longer, count⟩ := (ancestor_isSome bound (names.length + 1)).mp (endless _)
  obtain ⟨rest, same, onward⟩ := trail.onward longer (by omega)
  rw [same, final.ends onward, List.append_nil] at count
  omega

/-- A walk ends where it comes back to a name or where no link leads on. -/
theorem Stops.cycle_or_final {seen : List String} {last : Class} {stop : ChainEnd}
    (stops : Stops registry scope seen last stop) :
    (∃ name, stop = .cycle name) ∨ Final registry scope last := by
  cases stop with
  | root => exact .inr (final_root stops)
  | cycle name => exact .inl ⟨name, rfl⟩
  | unresolved id =>
      obtain ⟨super, leaves⟩ := stops
      refine .inr (final_unresolved super ?_)
      cases named : registry.nameOf? id with
      | none => exact .inl rfl
      | some name => exact .inr ⟨name, rfl, (leaves name named).2⟩

/-- No walk stops at a link to a name it has seen but for a cycle. -/
theorem Stops.cycle_of_seen {seen : List String} {last : Class} {stop : ChainEnd} {name : String}
    (stops : Stops registry scope seen last stop) (link : registry.link? last = some name)
    (passed : name ∈ seen) : stop = .cycle name := by
  obtain ⟨id, super, named⟩ := Option.bind_eq_some_iff.mp link
  cases stop with
  | root => cases super.symm.trans stops
  | cycle other => rw [Option.some.inj (link.symm.trans stops.1)]
  | unresolved other =>
      obtain ⟨super', leaves⟩ := stops
      cases super.symm.trans super'
      exact absurd passed (leaves name named).1

/-- A chain ends where a walk stops that has seen the names on its way and the own
name, which is not one of them. -/
theorem chainEnd_stops (registry : ClassRegistry) (scope : Scope) (self : Class) :
    ∃ names last, Trail registry scope self names last ∧ self.name ∉ names ∧
      Stops registry scope (names.reverse ++ [self.name]) last (registry.chainEnd self scope) := by
  obtain ⟨names, last, stop, walked, trail, _, fresh, stops⟩ :=
    walk_follows registry scope [self.name] self
  rw [chainEnd, walked]
  refine ⟨names, last, trail, ?_, stops⟩
  exact fun member => fresh self.name member (List.mem_singleton_self _)

/-- A link to the own name ends a walk in any case. -/
theorem NamesOwn.cycle {self : Class} (names : NamesOwn registry scope self) :
    ∃ name, registry.chainEnd self scope = .cycle name := by
  obtain ⟨names, last, trail, link⟩ := names
  obtain ⟨passed, ended, along, fresh, stops⟩ := chainEnd_stops registry scope self
  rcases Nat.lt_or_ge passed.length names.length with beyond | within
  · -- The walk ended before it came to that link.
    obtain ⟨rest, same, onward⟩ := along.onward trail (Nat.le_of_lt beyond)
    rcases stops.cycle_or_final with cycled | final
    · exact cycled
    · rw [same, final.ends onward, List.append_nil] at beyond
      exact absurd beyond (Nat.lt_irrefl _)
  · obtain ⟨rest, same, onward⟩ := trail.onward along within
    cases onward with
    | here => exact ⟨self.name, stops.cycle_of_seen link (by simp)⟩
    | up link' _ _ =>
        -- The walk would have followed the link to a name it had seen.
        cases link.symm.trans link'
        exact absurd (by simp [same]) fresh

/-- What a walk takes for a cycle. -/
theorem chainEnd_cycle_iff {name : String} {self : Class} (bound : scope.class? name = some self) :
    (∃ back, registry.chainEnd self scope = .cycle back) ↔
      Endless registry scope name ∨ NamesOwn registry scope self := by
  obtain ⟨names, last, trail, _, stops⟩ := chainEnd_stops registry scope self
  constructor
  · rintro ⟨back, ended⟩
    rw [ended] at stops
    obtain ⟨link, passed⟩ := stops
    rcases List.mem_append.mp passed with inside | start
    · obtain ⟨before, after, split⟩ := List.append_of_mem (List.mem_reverse.mp inside)
      obtain ⟨first, here, upto, around⟩ := Trail.bound (split ▸ trail)
      have closes : OnCycle registry scope first :=
        ⟨after ++ [back], by simp, around.append (.up link here .here)⟩
      exact .inl (closes.endless_below upto bound)
    · exact .inr ⟨names, last, trail, List.mem_singleton.mp start ▸ link⟩
  · rintro (endless | own)
    · rcases stops.cycle_or_final with cycled | final
      · exact cycled
      · exact absurd final (endless.not_final bound trail)
    · exact own.cycle

/-- Where the own name stands for the class itself, a link to it closes a cycle. -/
theorem NamesOwn.endless {name : String} {self : Class} (names : NamesOwn registry scope self)
    (bound : scope.class? name = some self) (home : scope.class? self.name = some self) :
    Endless registry scope name := by
  obtain ⟨names, last, trail, link⟩ := names
  have closes : OnCycle registry scope self :=
    ⟨names ++ [self.name], by simp, trail.append (.up link home .here)⟩
  exact closes.endless_below .here bound

theorem ReachesRoot.chainEnd {self : Class} (reaches : ReachesRoot registry scope self)
    (uncycled : ∀ name, registry.chainEnd self scope ≠ .cycle name) :
    registry.chainEnd self scope = .root := by
  obtain ⟨names, last, trail, root⟩ := reaches
  obtain ⟨passed, ended, along, _, stops⟩ := chainEnd_stops registry scope self
  rcases stops.cycle_or_final with ⟨back, cycled⟩ | final
  · exact absurd cycled (uncycled back)
  · cases (final_root root).unique final trail along
    cases stop : registry.chainEnd self scope with
    | root => rfl
    | cycle back => exact absurd stop (uncycled back)
    | unresolved id =>
        rw [stop] at stops
        cases root.symm.trans stops.1

theorem reportsCycle_coded (report? : Option Diagnostic) :
    ReportsCycle report? ↔ Coded report? 2003 ∨ Coded report? 2006 := by
  simp only [ReportsCycle, Coded, and_or_left, exists_or]

theorem reportsCycle_iff (span : Span) (name : String) (stop : ChainEnd) :
    ReportsCycle (unsoundness span name stop) ↔ ∃ back, stop = .cycle back := by
  rw [reportsCycle_coded, unsoundness_coded, unsoundness_coded]
  cases stop with
  | root | unresolved id => simp
  | cycle back => simpa using Classical.em (back = name)

theorem unsoundness_tells (span : Span) (self : Class) (stop : ChainEnd) (report : Diagnostic)
    (told : unsoundness span self.name stop = some report) : Tells span self report := by
  cases stop with
  | root => cases told
  | unresolved id =>
      cases told
      exact .leaving
  | cycle entered =>
      by_cases same : entered = self.name
      · rw [unsoundness, if_pos same] at told
        cases told
        exact .cyclic
      · rw [unsoundness, if_neg same] at told
        cases told
        exact .entering entered

/-- What the inheritance check reports of classes bound under any names: a cycle if
the superclasses never end, and besides only of a class with a class on its way that
links to its own name. Where that name stands for the class itself, as for a class
bound under its own name, the check is right; and it reports nothing of a class that
comes to a root and whose own name is not linked to on the way. Whatever it reports of
a class calls the class by its own name, not by the one that it is bound under. -/
theorem cyclic_reports (registry : ClassRegistry) (scope : Scope) (span : Span)
    (diagnostics : Diagnostics) :
    ∃ report? : Class → Option Diagnostic,
      (registry.checkInheritance scope span diagnostics).2.all =
        diagnostics.all ++ scope.classes.filterMap report? ∧
      ∀ name self, scope.class? name = some self →
        (ReportsCycle (report? self) ↔
          Endless registry scope name ∨ NamesOwn registry scope self) ∧
        (scope.class? self.name = some self →
          (ReportsCycle (report? self) ↔ Endless registry scope name)) ∧
        (ReachesRoot registry scope self → ¬ NamesOwn registry scope self →
          report? self = none) ∧
        ∀ report, report? self = some report → Tells span self report := by
  refine ⟨fun self => unsoundness span self.name (registry.chainEnd self scope),
    add_all diagnostics (registry.inheritanceProblems scope span), ?_⟩
  intro name self bound
  have reports := (reportsCycle_iff span self.name (registry.chainEnd self scope)).trans
    (chainEnd_cycle_iff bound)
  refine ⟨reports, ?_, ?_, unsoundness_tells span self _⟩
  · intro home
    rw [reports]
    constructor
    · rintro (endless | own)
      · exact endless
      · exact own.endless bound home
    · exact .inl
  · intro reaches apart
    have uncycled : ∀ back, registry.chainEnd self scope ≠ .cycle back := by
      intro back ended
      rcases (chainEnd_cycle_iff bound).mp ⟨back, ended⟩ with endless | own
      · obtain ⟨names, last, trail, root⟩ := reaches
        exact endless.not_final bound trail (final_root root)
      · exact apart own
    exact (unsoundness_none span self.name _).mpr (reaches.chainEnd uncycled)

/-- Two classes bound under other names than their own extend each other by those
names, and both are reported. -/
theorem cyclic_reports_renamed :
    let registry : ClassRegistry := ⟨["P", "Q"]⟩
    let first : Class := ⟨"A", some ⟨1⟩, .empty⟩
    let second : Class := ⟨"B", some ⟨0⟩, .empty⟩
    let scope : Scope := ⟨.program "main", ⟨[("P", first.entry), ("Q", second.entry)], none⟩⟩
    Endless registry scope "P" ∧ Endless registry scope "Q" ∧
      ∃ report? : Class → Option Diagnostic,
        (registry.checkInheritance scope ⟨0, 0⟩ .empty).2.all = [first, second].filterMap report? ∧
        report? first = some (.located ⟨0, 0⟩ .inheritsFromCycle ["A", "Q"]) ∧
        report? second = some (.located ⟨0, 0⟩ .inheritsFromCycle ["B", "P"]) ∧
        ReportsCycle (report? first) ∧ ReportsCycle (report? second) := by
  intro registry first second scope
  have below : Trail registry scope first ["Q"] second := .up rfl rfl .here
  have closes : OnCycle registry scope second := ⟨["P", "Q"], nofun, .up rfl rfl below⟩
  have left : Endless registry scope "P" := closes.endless_below below rfl
  have right : Endless registry scope "Q" := closes.endless_below .here rfl
  obtain ⟨report?, added, reports⟩ := cyclic_reports registry scope ⟨0, 0⟩ .empty
  have leftTold := (reports "P" first rfl).1.mpr (.inl left)
  have rightTold := (reports "Q" second rfl).1.mpr (.inl right)
  -- The walks come back to binding names, the reports begin with the own names.
  have ended : registry.ends scope = [("A", .cycle "Q"), ("B", .cycle "P")] := by decide +kernel
  have listed := registry.check_ends scope ⟨0, 0⟩ .empty
  rw [ended] at listed
  have ⟨one, here, _⟩ := leftTold
  have ⟨other, there, _⟩ := rightTold
  have both : [first, second].filterMap report? = [one, other] := by
    simp [here, there]
  obtain ⟨oneTold, otherTold⟩ := List.cons.inj (both.symm.trans (added.symm.trans listed))
  rw [oneTold] at here
  rw [(List.cons.inj otherTold).1] at there
  exact ⟨left, right, report?, added, here, there, leftTold, rightTold⟩

/-- A class named `A` is bound as `X` and extends what is bound as `A`, a class without
superclass: it is reported on a cycle, though its superclasses end. -/
theorem cyclic_report_misread :
    let registry : ClassRegistry := ⟨["A"]⟩
    let base : Class := ⟨"Base", none, .empty⟩
    let derived : Class := ⟨"A", some ⟨0⟩, .empty⟩
    let scope : Scope := ⟨.program "main", ⟨[("A", base.entry), ("X", derived.entry)], none⟩⟩
    let report := Diagnostic.located ⟨0, 0⟩ .cyclicInheritance ["A"]
    Obtainable scope.tree ∧ scope.class? "X" = some derived ∧
      registry.ancestor? scope 1 "X" = some "A" ∧ registry.ancestor? scope 2 "X" = none ∧
      ¬ Endless registry scope "X" ∧ ReachesRoot registry scope derived ∧
      report.message.code = 2003 ∧
      registry.checkInheritance scope ⟨0, 0⟩ .empty = (false, ⟨[report]⟩) := by
  intro registry base derived scope report
  have baseMade : Obtainable (.ofEntry base.entry) := @Obtainable.class "Base" base rfl
  have derivedMade : Obtainable (.ofEntry derived.entry) :=
    (@Obtainable.class "A" ⟨"A", none, .empty⟩ rfl).run [.extend ⟨0⟩] (by simp [Operation.brought?])
  have obtained : Obtainable scope.tree :=
    (@Obtainable.program "main" ⟨.program "main", .empty⟩ rfl).run
      [.at [] (.bind "A" base.entry), .at [] (.bind "X" derived.entry)]
      (by simp [Operation.brought?, Act.brought?, baseMade, derivedMade])
  have ended : registry.ancestor? scope 2 "X" = none := rfl
  have finite : ¬ Endless registry scope "X" := by
    intro endless
    have second := endless 2
    rw [ended] at second
    cases second
  have root : ReachesRoot registry scope derived := ⟨["A"], base, .up rfl rfl .here, rfl⟩
  have rooted : registry.chainEnd base scope = .root := by
    have stops : Stops registry scope ["Base"] base .root := rfl
    rw [chainEnd, walk_stops stops]
  have misread : registry.chainEnd derived scope = .cycle "A" := by
    have stops : Stops registry scope ["A"] derived (.cycle "A") :=
      ⟨rfl, List.mem_singleton_self _⟩
    rw [chainEnd, walk_stops stops]
  have problems : registry.inheritanceProblems scope ⟨0, 0⟩ = [report] := by
    have members : scope.classes = [base, derived] := rfl
    rw [inheritanceProblems, show scope.table.values.filterMap Entry.class? = _ from members]
    simp [unsoundness, rooted, misread, report, derived]
  refine ⟨obtained, rfl, rfl, ended, finite, root, rfl, ?_⟩
  rw [checkInheritance, problems]
  rfl

end SymbolTable.ClassRegistry
