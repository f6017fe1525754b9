import Mathlib.Data.List.Perm.Subperm
import SymbolTable.Proofs.Inheritance.Classification

/-!
Superclass chains as paths. A path names one superclass after the other, and the
chain of a class is the one path that repeats no name and cannot be continued. Every
name on it is registered and bound to a class, so it is no longer than the registry
and has no more names than the scope has classes; the loop that collects it needs
one turn more than the chain has names.
-/
namespace SymbolTable

/-- The class that a path has come to behind so many of its names. -/
def Scope.arrival? (scope : Scope) (start : Class) (names : List String) : Nat → Option Class
  | 0 => some start
  | passed + 1 => names[passed]?.bind scope.class?

def Scope.classNames (scope : Scope) : List String :=
  (scope.table.bindings.filter fun binding => binding.2.class?.isSome).map Prod.fst

theorem Scope.classNames_length (scope : Scope) :
    scope.classNames.length = scope.classes.length := by
  rw [classNames, classes, Table.values, List.filterMap_map, List.length_map,
    List.length_filterMap_eq_countP, List.countP_eq_length_filter]
  rfl

theorem Scope.mem_classNames (scope : Scope) (name : String) (self : Class)
    (bound : scope.class? name = some self) : name ∈ scope.classNames := by
  obtain ⟨entry, found, owned⟩ := Option.bind_eq_some_iff.mp bound
  refine List.mem_map.mpr ⟨(name, entry), List.mem_filter.mpr ⟨?_, ?_⟩, rfl⟩
  · exact scope.table.lookup_mem name entry found
  · rw [owned, Option.isSome_some]

namespace ClassRegistry

section
variable (registry : ClassRegistry) (scope : Scope)

/-- The walk as a loop that is given up when so many turns were not enough. -/
def walkWithin : Nat → List String → List String → Class → Option (List String × ChainEnd)
  | 0, _, _, _ => none
  | turns + 1, seen, chain, current =>
      match current.super? with
      | none => some (chain, .root)
      | some id =>
          match registry.nameOf? id with
          | none => some (chain, .unresolved id)
          | some name =>
              if name ∈ seen then
                some (chain, .cycle name)
              else
                match registry.resolve id scope with
                | none => some (chain, .unresolved id)
                | some next => walkWithin turns (name :: seen) (chain ++ [name]) next

inductive Last (behind : List String) (last : Class) : Prop where
  | root : last.super? = none → Last behind last
  | unknown {id} : last.super? = some id → registry.nameOf? id = none → Last behind last
  | repeated {name} : registry.link? last = some name → name ∈ behind → Last behind last
  | unbound {name} : registry.link? last = some name → scope.class? name = none → Last behind last

/-- A path of superclass names without repetition that cannot be continued. -/
structure MaximalPath (start : Class) (names : List String) : Prop where
  distinct : names.Nodup
  apart : start.name ∉ names
  linked : ∀ (position : Nat) name, names[position]? = some name →
    ∃ self, scope.arrival? start names position = some self ∧ registry.link? self = some name
  bound : ∀ name ∈ names, ∃ self, scope.class? name = some self
  ended : ∃ last, scope.arrival? start names names.length = some last ∧
    Last registry scope (start.name :: names) last

end

variable {registry : ClassRegistry} {scope : Scope}

theorem arrival_cons (start : Class) {next : Class} {name : String} (names : List String)
    (bound : scope.class? name = some next) (passed : Nat) :
    scope.arrival? start (name :: names) (passed + 1) = scope.arrival? next names passed := by
  cases passed with
  | zero => simpa [Scope.arrival?] using bound
  | succ passed => rfl

theorem Trail.linked {start last : Class} {names : List String}
    (trail : Trail registry scope start names last) (position : Nat) (name : String)
    (there : names[position]? = some name) :
    ∃ self, scope.arrival? start names position = some self ∧
      registry.link? self = some name := by
  induction trail generalizing position with
  | here => cases there
  | @up start next last first names link bound _ ih =>
      cases position with
      | zero =>
          cases there
          exact ⟨start, rfl, link⟩
      | succ position =>
          rw [arrival_cons start names bound]
          exact ih position there

theorem Trail.arrives {start last : Class} {names : List String}
    (trail : Trail registry scope start names last) :
    scope.arrival? start names names.length = some last := by
  induction trail with
  | here => rfl
  | @up start next last name names _ bound _ ih => exact (arrival_cons start names bound _).trans ih

theorem Trail.bound_all {start last : Class} {names : List String}
    (trail : Trail registry scope start names last) :
    ∀ name ∈ names, ∃ self, scope.class? name = some self := by
  intro name member
  obtain ⟨before, after, split⟩ := List.append_of_mem member
  obtain ⟨self, found, _, _⟩ := Trail.bound (split ▸ trail)
  exact ⟨self, found⟩

/-- Names that each follow from the one before form a trail. -/
theorem trail_of_linked {start last : Class} {names : List String}
    (linked : ∀ (position : Nat) name, names[position]? = some name →
      ∃ self, scope.arrival? start names position = some self ∧ registry.link? self = some name)
    (bound : ∀ name ∈ names, ∃ self, scope.class? name = some self)
    (arrives : scope.arrival? start names names.length = some last) :
    Trail registry scope start names last := by
  induction names generalizing start with
  | nil =>
      cases arrives
      exact .here
  | cons name names ih =>
      obtain ⟨self, here, link⟩ := linked 0 name rfl
      cases here
      obtain ⟨next, found⟩ := bound name List.mem_cons_self
      refine .up link found (ih ?_ ?_ ?_)
      · intro position later there
        rw [← arrival_cons start names found]
        exact linked (position + 1) later there
      · exact fun later member => bound later (List.mem_cons_of_mem _ member)
      · exact (arrival_cons start names found _).symm.trans arrives

/-- Where a path cannot be continued is where a walk that has seen its names stops. -/
theorem last_iff_stops {seen behind : List String} (same : ∀ name, name ∈ seen ↔ name ∈ behind)
    (last : Class) :
    Last registry scope behind last ↔ ∃ stop, Stops registry scope seen last stop := by
  constructor
  · rintro (root | ⟨super, unknown⟩ | ⟨link, repeats⟩ | ⟨link, unbound⟩)
    · exact ⟨.root, root⟩
    · exact ⟨.unresolved _, super, by simp [unknown]⟩
    · exact ⟨.cycle _, link, (same _).mpr repeats⟩
    · rename_i name
      by_cases passed : name ∈ seen
      · exact ⟨.cycle name, link, passed⟩
      · obtain ⟨id, super, named⟩ := Option.bind_eq_some_iff.mp link
        exact ⟨.unresolved id, super, by simp [named, passed, unbound]⟩
  · rintro ⟨stop, stops⟩
    cases stop with
    | root => exact .root stops
    | cycle name => exact .repeated stops.1 ((same name).mp stops.2)
    | unresolved id =>
        obtain ⟨super, leaves⟩ := stops
        cases named : registry.nameOf? id with
        | none => exact .unknown super named
        | some name =>
            have link : registry.link? last = some name := by
              rw [link?, super, Option.bind_some, named]
            exact .unbound link (leaves name named).2

theorem chain_maximal (registry : ClassRegistry) (scope : Scope) (start : Class) :
    MaximalPath registry scope start (registry.superclassChain start scope) := by
  obtain ⟨names, last, stop, walked, trail, distinct, fresh, stops⟩ :=
    walk_follows registry scope [start.name] start
  rw [superclassChain, walked]
  refine ⟨distinct, ?_, trail.linked, trail.bound_all, last, trail.arrives, ?_⟩
  · exact fun member => fresh start.name member (List.mem_singleton_self _)
  · exact (last_iff_stops (by simp [or_comm]) last).mpr ⟨stop, stops⟩

theorem MaximalPath.unique {start : Class} {names : List String}
    (path : MaximalPath registry scope start names) :
    names = registry.superclassChain start scope := by
  obtain ⟨last, arrives, ended⟩ := path.ended
  have trail := trail_of_linked path.linked path.bound arrives
  have fresh : ∀ name ∈ names, name ∉ [start.name] := by
    intro name member same
    exact path.apart (List.mem_singleton.mp same ▸ member)
  have seen : ∀ name, name ∈ names.reverse ++ [start.name] ↔ name ∈ start.name :: names := by
    simp [or_comm]
  obtain ⟨stop, stops⟩ := (last_iff_stops seen last).mp ended
  rw [superclassChain, walk_trail trail [start.name] path.distinct fresh, walk_stops stops,
    List.append_nil]

theorem MaximalPath.registered {start : Class} {names : List String}
    (path : MaximalPath registry scope start names) : names.length ≤ registry.size := by
  refine (path.distinct.subperm ?_).length_le
  intro name member
  obtain ⟨position, there⟩ := List.mem_iff_getElem?.mp member
  obtain ⟨self, _, link⟩ := path.linked position name there
  exact registered_link link

theorem MaximalPath.within_classes {start : Class} {names : List String}
    (path : MaximalPath registry scope start names) : names.length ≤ scope.classes.length := by
  rw [← scope.classNames_length]
  refine (path.distinct.subperm ?_).length_le
  intro name member
  obtain ⟨self, bound⟩ := path.bound name member
  exact scope.mem_classNames name self bound

theorem walkWithin_stops {seen chain : List String} {current : Class} {stop : ChainEnd}
    (stops : Stops registry scope seen current stop) (turns : Nat) :
    registry.walkWithin scope (turns + 1) seen chain current = some (chain, stop) := by
  cases stop with
  | root => simp only [walkWithin, show current.super? = none from stops]
  | unresolved id =>
      obtain ⟨super, leaves⟩ := stops
      cases named : registry.nameOf? id with
      | none => simp only [walkWithin, super, named]
      | some name =>
          obtain ⟨fresh, unbound⟩ := leaves name named
          simp only [walkWithin, super, named, if_neg fresh, resolve_named named, unbound]
  | cycle name =>
      obtain ⟨link, passed⟩ := stops
      obtain ⟨id, super, named⟩ := Option.bind_eq_some_iff.mp link
      simp only [walkWithin, super, named, if_pos passed]

theorem walkWithin_up {seen chain : List String} {current next : Class} {name : String}
    (link : registry.link? current = some name) (fresh : name ∉ seen)
    (bound : scope.class? name = some next) (turns : Nat) :
    registry.walkWithin scope (turns + 1) seen chain current =
      registry.walkWithin scope turns (name :: seen) (chain ++ [name]) next := by
  obtain ⟨id, super, named⟩ := Option.bind_eq_some_iff.mp link
  simp only [walkWithin, super, named, if_neg fresh, resolve_named named, bound]

/-- The loop ends in the turn behind the last name, with what the walk gives. -/
theorem walkWithin_eq (turns : Nat) (seen chain : List String) (current : Class) :
    registry.walkWithin scope turns seen chain current =
      if (registry.walk scope seen current).1.length < turns then
        some (chain ++ (registry.walk scope seen current).1, (registry.walk scope seen current).2)
      else none := by
  induction turns generalizing seen chain current with
  | zero => rfl
  | succ turns ih =>
      rcases stops_or_up registry scope seen current with
        ⟨stop, stops⟩ | ⟨name, next, link, fresh, bound⟩
      · simp [walkWithin_stops stops, walk_stops stops]
      · rw [walkWithin_up link fresh bound, walk_up link fresh bound, ih]
        simp

/-- The chain of a class is its maximal path without repetition: the only one, no
longer than the registry, with no more names than the scope has classes, and found
by a loop that ends in one turn more than it has names. -/
theorem superclass_chain_maximal (registry : ClassRegistry) (scope : Scope) (start : Class) :
    let names := registry.superclassChain start scope
    (∀ other, MaximalPath registry scope start other ↔ other = names) ∧
      names.length ≤ registry.size ∧ names.length ≤ scope.classes.length ∧
      ∀ turns, registry.walkWithin scope turns [start.name] [] start =
        if names.length < turns then some (names, registry.chainEnd start scope) else none := by
  intro names
  have path : MaximalPath registry scope start names := chain_maximal registry scope start
  refine ⟨?_, path.registered, path.within_classes, ?_⟩
  · intro other
    constructor
    · exact fun another => another.unique
    · exact fun same => same ▸ path
  · intro turns
    exact walkWithin_eq turns [start.name] [] start

end ClassRegistry
end SymbolTable
