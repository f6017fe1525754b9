import Mathlib.Data.List.Basic
import SymbolTable.Proofs.Inheritance.Classification

/-!
Walks and names. A class has a lineage: its name, and the name that its
superclass link stands for. Numbers show nowhere else, so two walks between
classes of the same lineages pass the same names and stop in the same way, under
whatever numbers the links are kept and in whatever order the classes are bound.
-/
namespace SymbolTable

structure Lineage where
  name : String
  super? : Option String
  deriving DecidableEq, Repr

def Lineage.Of (lineage : Lineage) (registry : ClassRegistry) (self : Class) : Prop :=
  self.name = lineage.name ∧ self.super?.map registry.nameOf? = lineage.super?.map some

/-- A scope binds classes of these lineages, in this order, and no other classes. -/
structure Scope.Presents (scope : Scope) (registry : ClassRegistry) (lineages : List Lineage) :
    Prop where
  ordered : scope.classes = lineages.filterMap fun lineage => scope.class? lineage.name
  bound : ∀ lineage ∈ lineages, ∃ self,
    scope.class? lineage.name = some self ∧ lineage.Of registry self
  only : ∀ name self, scope.class? name = some self → ∃ lineage ∈ lineages, lineage.name = name

inductive ChainEnd.Alike : ChainEnd → ChainEnd → Prop where
  | root : Alike .root .root
  | unresolved {link link'} : Alike (.unresolved link) (.unresolved link')
  | cycle {name} : Alike (.cycle name) (.cycle name)

namespace ClassRegistry

def Alike (registry registry' : ClassRegistry) (self self' : Class) : Prop :=
  ∃ lineage : Lineage, lineage.Of registry self ∧ lineage.Of registry' self'

theorem link_lineage {registry : ClassRegistry} {lineage : Lineage} {self : Class}
    (descent : lineage.Of registry self) : registry.link? self = lineage.super? := by
  obtain ⟨_, linked⟩ := descent
  rw [link?]
  cases super : self.super? with
  | none =>
      rw [super, Option.map_none, eq_comm, Option.map_eq_none_iff] at linked
      exact linked.symm
  | some id =>
      rw [super, Option.map_some, eq_comm] at linked
      obtain ⟨name, above, named⟩ := Option.map_eq_some_iff.mp linked
      rw [above, Option.bind_some, named]

theorem root_lineage {registry : ClassRegistry} {lineage : Lineage} {self : Class}
    (descent : lineage.Of registry self) : self.super? = none ↔ lineage.super? = none := by
  rw [← Option.map_eq_none_iff, descent.2, Option.map_eq_none_iff]

theorem link_alike {registry registry' : ClassRegistry} {self self' : Class}
    (alike : Alike registry registry' self self') :
    registry.link? self = registry'.link? self' := by
  obtain ⟨lineage, descent, descent'⟩ := alike
  rw [link_lineage descent, link_lineage descent']

theorem root_alike {registry registry' : ClassRegistry} {self self' : Class}
    (alike : Alike registry registry' self self') : self.super? = none ↔ self'.super? = none := by
  obtain ⟨lineage, descent, descent'⟩ := alike
  rw [root_lineage descent, root_lineage descent']

theorem unsoundness_alike (span : Span) (name : String) {stop stop' : ChainEnd}
    (alike : stop.Alike stop') : unsoundness span name stop = unsoundness span name stop' := by
  cases alike <;> rfl

def reportOn (registry : ClassRegistry) (scope : Scope) (span : Span) (lineage : Lineage) :
    Option Diagnostic :=
  (scope.class? lineage.name).bind fun self =>
    unsoundness span self.name (registry.chainEnd self scope)

theorem problems_ordered {registry : ClassRegistry} {scope : Scope} {lineages : List Lineage}
    (presents : scope.Presents registry lineages) (span : Span) :
    registry.inheritanceProblems scope span =
      lineages.filterMap (registry.reportOn scope span) := by
  change scope.classes.filterMap _ = _
  rw [presents.ordered, List.filterMap_filterMap]
  rfl

section
variable {registry registry' : ClassRegistry} {scope scope' : Scope}
  {lineages lineages' : List Lineage}
  (presents : scope.Presents registry lineages) (presents' : scope'.Presents registry' lineages')

include presents presents'

/-- What a name is bound to in one scope has a counterpart in the other. -/
theorem counterpart (within : lineages ⊆ lineages') {name : String} {self : Class}
    (bound : scope.class? name = some self) :
    ∃ self', scope'.class? name = some self' ∧ Alike registry registry' self self' := by
  obtain ⟨lineage, member, same⟩ := presents.only name self bound
  obtain ⟨here, found, descent⟩ := presents.bound lineage member
  obtain ⟨there, found', descent'⟩ := presents'.bound lineage (within member)
  rw [same] at found found'
  cases bound.symm.trans found
  exact ⟨there, found', lineage, descent, descent'⟩

theorem Stops.alike (within : lineages' ⊆ lineages) {seen : List String} {last last' : Class}
    {stop : ChainEnd} (stops : Stops registry scope seen last stop)
    (alike : Alike registry registry' last last') :
    ∃ stop', Stops registry' scope' seen last' stop' ∧ stop.Alike stop' := by
  have links := link_alike alike
  cases stop with
  | root => exact ⟨.root, (root_alike alike).mp stops, .root⟩
  | unresolved id =>
      obtain ⟨super, leaves⟩ := stops
      cases super' : last'.super? with
      | none => cases super.symm.trans ((root_alike alike).mpr super')
      | some id' =>
          refine ⟨.unresolved id', ⟨super', ?_⟩, .unresolved⟩
          intro name named
          rw [link?, link?, super, super', Option.bind_some, Option.bind_some] at links
          obtain ⟨fresh, unbound⟩ := leaves name (links.trans named)
          refine ⟨fresh, ?_⟩
          cases bound : scope'.class? name with
          | none => rfl
          | some other =>
              obtain ⟨self, found, _⟩ := counterpart presents' presents within bound
              cases unbound.symm.trans found
  | cycle name => exact ⟨.cycle name, ⟨links.symm.trans stops.1, stops.2⟩, .cycle⟩

/-- Walks from alike classes pass the same names and stop alike. -/
theorem walk_alike (same : lineages.Perm lineages') (seen : List String) {first first' : Class}
    (alike : Alike registry registry' first first') :
    (registry.walk scope seen first).1 = (registry'.walk scope' seen first').1 ∧
      (registry.walk scope seen first).2.Alike (registry'.walk scope' seen first').2 := by
  obtain ⟨names, last, stop, walked, trail, distinct, fresh, stops⟩ :=
    walk_follows registry scope seen first
  obtain ⟨last', trail', ends⟩ := trail.transport
    (fun _ _ _ together link => (link_alike together).symm.trans link)
    (fun _ _ bound => counterpart presents presents' same.subset bound) alike
  obtain ⟨stop', stops', meets⟩ := stops.alike presents presents' same.symm.subset ends
  rw [walked, walk_trail trail' seen distinct fresh, walk_stops stops', List.append_nil]
  exact ⟨rfl, meets⟩

/-- One lineage in two scopes: the classes have one chain, and ends alike. -/
theorem chain_alike (same : lineages.Perm lineages') {lineage : Lineage}
    (member : lineage ∈ lineages) :
    ∃ self self', scope.class? lineage.name = some self ∧
      scope'.class? lineage.name = some self' ∧ self.name = self'.name ∧
      registry.superclassChain self scope = registry'.superclassChain self' scope' ∧
      (registry.chainEnd self scope).Alike (registry'.chainEnd self' scope') := by
  obtain ⟨self, bound, descent⟩ := presents.bound lineage member
  obtain ⟨self', bound', descent'⟩ := presents'.bound lineage (same.subset member)
  have named : self.name = self'.name := descent.1.trans descent'.1.symm
  obtain ⟨names, stops⟩ :=
    walk_alike presents presents' same [self.name] ⟨lineage, descent, descent'⟩
  refine ⟨self, self', bound, bound', named, ?_, ?_⟩
  · rw [superclassChain, superclassChain, ← named, names]
  · rw [chainEnd, chainEnd, ← named]
    exact stops

theorem report_alike (same : lineages.Perm lineages') (span : Span) {lineage : Lineage}
    (member : lineage ∈ lineages) :
    registry.reportOn scope span lineage = registry'.reportOn scope' span lineage := by
  obtain ⟨self, self', bound, bound', named, _, stops⟩ :=
    chain_alike presents presents' same member
  rw [reportOn, reportOn, bound, bound', Option.bind_some, Option.bind_some, ← named]
  exact unsoundness_alike span self.name stops

/-- Both scopes have the same problems, each in the order of its classes. -/
theorem problems_alike (same : lineages.Perm lineages') (span : Span) :
    registry.inheritanceProblems scope span = lineages.filterMap (registry.reportOn scope span) ∧
      registry'.inheritanceProblems scope' span =
        lineages'.filterMap (registry.reportOn scope span) := by
  refine ⟨problems_ordered presents span, ?_⟩
  rw [problems_ordered presents' span]
  apply List.filterMap_congr
  intro lineage member
  exact (report_alike presents presents' same span (same.symm.subset member)).symm

end

end ClassRegistry
end SymbolTable
