import SymbolTable.Class.Inheritance

/-!
Trails of superclass links, apart from the walk that follows them. `Trail`
says which names a path of links passes and `Stops` when a walk that has seen
certain names goes no further. A walk is the one trail of names that are new
and distinct, up to the class where it stops.
-/
namespace SymbolTable

def Scope.class? (scope : Scope) (name : String) : Option Class :=
  (scope.lookup? name).bind Entry.class?

namespace ClassRegistry

def link? (registry : ClassRegistry) (self : Class) : Option String :=
  self.super?.bind registry.nameOf?

theorem registered_link {registry : ClassRegistry} {self : Class} {name : String}
    (link : registry.link? self = some name) : name ∈ registry.names := by
  obtain ⟨id, _, named⟩ := Option.bind_eq_some_iff.mp link
  exact List.mem_of_getElem? named

variable {registry : ClassRegistry} {scope : Scope}

inductive Trail (registry : ClassRegistry) (scope : Scope) : Class → List String → Class → Prop where
  | here {self} : Trail registry scope self [] self
  | up {self next last name names} : registry.link? self = some name →
      scope.class? name = some next → Trail registry scope next names last →
      Trail registry scope self (name :: names) last

/-- Whether a walk that has seen some names ends at this class in this way. -/
def Stops (registry : ClassRegistry) (scope : Scope) (seen : List String) (last : Class) :
    ChainEnd → Prop
  | .root => last.super? = none
  | .unresolved id => last.super? = some id ∧
      ∀ name, registry.nameOf? id = some name → name ∉ seen ∧ scope.class? name = none
  | .cycle name => registry.link? last = some name ∧ name ∈ seen

theorem Trail.append {first middle last : Class} {names more : List String}
    (before : Trail registry scope first names middle)
    (after : Trail registry scope middle more last) :
    Trail registry scope first (names ++ more) last := by
  induction before with
  | here => exact after
  | up link bound _ ih => exact .up link bound (ih after)

theorem Trail.split {first last : Class} (names more : List String)
    (trail : Trail registry scope first (names ++ more) last) :
    ∃ middle, Trail registry scope first names middle ∧ Trail registry scope middle more last := by
  induction names generalizing first with
  | nil => exact ⟨first, .here, trail⟩
  | cons name rest ih =>
      cases trail with
      | up link bound onward =>
          obtain ⟨middle, before, after⟩ := ih onward
          exact ⟨middle, .up link bound before, after⟩

/-- Links lead one way: of two trails from one class the longer goes on where
the shorter ends. -/
theorem Trail.onward {first middle last : Class} {names more : List String}
    (short : Trail registry scope first names middle)
    (long : Trail registry scope first more last) (shorter : names.length ≤ more.length) :
    ∃ rest, more = names ++ rest ∧ Trail registry scope middle rest last := by
  induction short generalizing more with
  | here => exact ⟨more, rfl, long⟩
  | @up self next _ name names link bound _ ih =>
      cases long with
      | here => simp at shorter
      | @up _ next' _ name' names' link' bound' onward =>
          rw [link] at link'
          cases link'
          rw [bound] at bound'
          cases bound'
          obtain ⟨rest, same, trail⟩ := ih onward (by simpa using shorter)
          exact ⟨rest, by rw [same, List.cons_append], trail⟩

theorem Trail.unique {first last other : Class} {names : List String}
    (left : Trail registry scope first names last)
    (right : Trail registry scope first names other) : last = other := by
  obtain ⟨rest, same, trail⟩ := left.onward right (Nat.le_refl _)
  have nothing : rest = [] := by simpa using same
  subst nothing
  cases trail
  rfl

/-- Each name that a trail passes is bound to the class it reaches there. -/
theorem Trail.bound {first last : Class} {before after : List String} {name : String}
    (trail : Trail registry scope first (before ++ name :: after) last) :
    ∃ middle, scope.class? name = some middle ∧
      Trail registry scope first (before ++ [name]) middle ∧
      Trail registry scope middle after last := by
  obtain ⟨lower, start, rest⟩ := trail.split before (name :: after)
  cases rest with
  | @up _ middle _ _ _ link bound onward =>
      exact ⟨middle, bound, start.append (.up link bound .here), onward⟩

/-- A trail can be followed wherever links and bindings lead to alike classes. -/
theorem Trail.transport {registry' : ClassRegistry} {scope' : Scope} {Alike : Class → Class → Prop}
    (links : ∀ self other name, Alike self other → registry.link? self = some name →
      registry'.link? other = some name)
    (bindings : ∀ name next, scope.class? name = some next →
      ∃ next', scope'.class? name = some next' ∧ Alike next next')
    {first last first' : Class} {names : List String}
    (trail : Trail registry scope first names last) (alike : Alike first first') :
    ∃ last', Trail registry' scope' first' names last' ∧ Alike last last' := by
  induction trail generalizing first' with
  | here => exact ⟨first', .here, alike⟩
  | @up self next last name names link bound _ ih =>
      obtain ⟨next', bound', same⟩ := bindings name next bound
      obtain ⟨last', onward, ends⟩ := ih same
      exact ⟨last', .up (links self first' name alike link) bound' onward, ends⟩

theorem resolve_named {id : ClassId} {name : String} (named : registry.nameOf? id = some name) :
    registry.resolve id scope = scope.class? name := by
  simp [resolve, named, Scope.class?]

theorem walk_stops {seen : List String} {current : Class} {stop : ChainEnd}
    (stops : Stops registry scope seen current stop) :
    registry.walk scope seen current = ([], stop) := by
  rw [walk]
  cases stop with
  | root =>
      split
      · rfl
      · rename_i id super
        cases stops.symm.trans super
  | unresolved id =>
      obtain ⟨super, leaves⟩ := stops
      split
      · rename_i none
        cases super.symm.trans none
      · rename_i other some
        cases super.symm.trans some
        split
        · rfl
        · rename_i name named
          obtain ⟨fresh, unbound⟩ := leaves name named
          rw [dif_neg fresh, resolve_named named, unbound]
  | cycle name =>
      obtain ⟨link, passed⟩ := stops
      obtain ⟨id, super, named⟩ := Option.bind_eq_some_iff.mp link
      split
      · rename_i none
        cases super.symm.trans none
      · rename_i other some
        cases super.symm.trans some
        split
        · rename_i unknown
          cases named.symm.trans unknown
        · rename_i found known
          cases named.symm.trans known
          rw [dif_pos passed]

theorem walk_up {seen : List String} {current next : Class} {name : String}
    (link : registry.link? current = some name) (fresh : name ∉ seen)
    (bound : scope.class? name = some next) :
    registry.walk scope seen current =
      (name :: (registry.walk scope (name :: seen) next).1,
        (registry.walk scope (name :: seen) next).2) := by
  obtain ⟨id, super, named⟩ := Option.bind_eq_some_iff.mp link
  rw [walk]
  split
  · rename_i none
    cases super.symm.trans none
  · rename_i other some
    cases super.symm.trans some
    split
    · rename_i unknown
      cases named.symm.trans unknown
    · rename_i found known
      cases named.symm.trans known
      rw [dif_neg fresh, resolve_named named, bound]

theorem stops_or_up (registry : ClassRegistry) (scope : Scope) (seen : List String)
    (current : Class) :
    (∃ stop, Stops registry scope seen current stop) ∨
      ∃ name next, registry.link? current = some name ∧ name ∉ seen ∧
        scope.class? name = some next := by
  cases super : current.super? with
  | none => exact .inl ⟨.root, super⟩
  | some id =>
      cases named : registry.nameOf? id with
      | none => exact .inl ⟨.unresolved id, super, by simp [named]⟩
      | some name =>
          have link : registry.link? current = some name := by simp [link?, super, named]
          by_cases passed : name ∈ seen
          · exact .inl ⟨.cycle name, link, passed⟩
          · cases bound : scope.class? name with
            | none => exact .inl ⟨.unresolved id, super, by simp [named, passed, bound]⟩
            | some next => exact .inr ⟨name, next, link, passed, bound⟩

/-- A walk along a trail of new and distinct names goes on from its end. -/
theorem walk_trail {first last : Class} {names : List String}
    (trail : Trail registry scope first names last) (seen : List String)
    (distinct : names.Nodup) (fresh : ∀ name ∈ names, name ∉ seen) :
    registry.walk scope seen first =
      (names ++ (registry.walk scope (names.reverse ++ seen) last).1,
        (registry.walk scope (names.reverse ++ seen) last).2) := by
  induction trail generalizing seen with
  | here => rfl
  | @up self next last name names link bound _ ih =>
      obtain ⟨absent, apart⟩ := List.nodup_cons.mp distinct
      have later : ∀ other ∈ names, other ∉ name :: seen := by
        intro other member
        rw [List.mem_cons]
        rintro (same | old)
        · exact absent (same ▸ member)
        · exact fresh other (List.mem_cons_of_mem _ member) old
      rw [walk_up link (fresh name List.mem_cons_self) bound, ih (name :: seen) apart later]
      simp

/-- Every walk passes a trail of new and distinct names and stops at its end. -/
theorem walk_follows (registry : ClassRegistry) (scope : Scope) (seen : List String)
    (first : Class) :
    ∃ names last stop, registry.walk scope seen first = (names, stop) ∧
      Trail registry scope first names last ∧ names.Nodup ∧ (∀ name ∈ names, name ∉ seen) ∧
      Stops registry scope (names.reverse ++ seen) last stop := by
  rcases stops_or_up registry scope seen first with ⟨stop, stops⟩ | ⟨name, next, link, fresh, bound⟩
  · exact ⟨[], first, stop, walk_stops stops, .here, List.nodup_nil, nofun, stops⟩
  · obtain ⟨names, last, stop, walked, trail, distinct, apart, stops⟩ :=
      walk_follows registry scope (name :: seen) next
    refine ⟨name :: names, last, stop, ?_, .up link bound trail, ?_, ?_, ?_⟩
    · rw [walk_up link fresh bound, walked]
    · refine List.nodup_cons.mpr ⟨?_, distinct⟩
      intro member
      exact apart name member List.mem_cons_self
    · intro other member
      rcases List.mem_cons.mp member with same | later
      · exact same ▸ fresh
      · exact fun old => apart other later (List.mem_cons_of_mem _ old)
    · simpa using stops
termination_by (registry.unseen seen).length
decreasing_by exact registry.unseen_shorter seen name fresh (registered_link link)

end ClassRegistry
end SymbolTable
