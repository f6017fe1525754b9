import SymbolTable.Proofs.Inheritance.Trail
import SymbolTable.Proofs.Permanence
import SymbolTable.Proofs.Registry

/-!
Superclass chains over time. Registering a name and working on a tree only ever
add: a number keeps its name, and a name keeps the class it is bound to, with
the superclass that class has. So a trail that could be followed once can be
followed ever after, and a walk that ended at a root or in a cycle ends there
again; only where a link led nowhere may it now lead on.
-/
namespace SymbolTable

structure Workspace where
  registry : ClassRegistry
  tree : Tree

inductive Event where
  | register (name : String)
  | operate (operation : Operation)

def Workspace.after (workspace : Workspace) : Event → Workspace
  | .register name => { workspace with registry := (workspace.registry.register name).2 }
  | .operate operation => { workspace with tree := (workspace.tree.perform operation).2 }

def Workspace.run (workspace : Workspace) (events : List Event) : Workspace :=
  events.foldl Workspace.after workspace

/-- One class at two times: it may have gained members, but links as it did. -/
def Class.Kept (before after : Class) : Prop :=
  after.name = before.name ∧ after.super? = before.super?

theorem Entry.Grown.class_kept {earlier later : Entry} (grown : earlier.Grown later) {self : Class}
    (found : earlier.class? = some self) :
    ∃ after, later.class? = some after ∧ self.Kept after := by
  cases grown with
  | leaf => cases found
  | @scope header before after names values =>
      cases header with
      | block label => cases found
      | method name returns paramCount => cases found
      | «class» name super? =>
          cases found
          exact ⟨_, rfl, rfl, rfl⟩

theorem Table.Grown.class_kept {before after : Scope} (grown : before.table.Grown after.table)
    {name : String} {self : Class} (found : before.class? name = some self) :
    ∃ later, after.class? name = some later ∧ self.Kept later := by
  obtain ⟨entry, bound, same⟩ := Option.bind_eq_some_iff.mp found
  obtain ⟨entry', bound', inner⟩ := grown.lookup name entry bound
  obtain ⟨later, same', kept⟩ := inner.class_kept same
  exact ⟨later, Option.bind_eq_some_iff.mpr ⟨entry', bound', same'⟩, kept⟩

namespace ClassRegistry

theorem nameOf_grown {before after : ClassRegistry} (grown : before.names <+: after.names)
    {id : ClassId} {name : String} (named : before.nameOf? id = some name) :
    after.nameOf? id = some name := by
  obtain ⟨more, split⟩ := grown
  unfold nameOf? at *
  rw [← split, List.getElem?_append_left (List.getElem?_eq_some_iff.mp named).1, named]

section
variable {registry registry' : ClassRegistry} {scope scope' : Scope}
  (registered : registry.names <+: registry'.names) (wider : scope.table.Grown scope'.table)
include registered

theorem link_grown {self later : Class} (kept : self.Kept later) {name : String}
    (link : registry.link? self = some name) : registry'.link? later = some name := by
  obtain ⟨id, super, named⟩ := Option.bind_eq_some_iff.mp link
  exact Option.bind_eq_some_iff.mpr ⟨id, kept.2.trans super, nameOf_grown registered named⟩

theorem Stops.grown {seen : List String} {last later : Class} {stop : ChainEnd}
    (stops : Stops registry scope seen last stop) (kept : last.Kept later)
    (resolved : ∀ id, stop ≠ .unresolved id) : Stops registry' scope' seen later stop := by
  cases stop with
  | root => exact kept.2.trans stops
  | unresolved id => exact absurd rfl (resolved id)
  | cycle name => exact ⟨link_grown registered kept stops.1, stops.2⟩

include wider

theorem Trail.grown {first last : Class} {names : List String}
    (trail : Trail registry scope first names last) {first' : Class} (kept : first.Kept first') :
    ∃ last', Trail registry' scope' first' names last' ∧ last.Kept last' :=
  trail.transport (fun _ _ _ same link => link_grown registered same link)
    (fun _ _ bound => wider.class_kept bound) kept

/-- The walk of later follows the walk of before to its end, and stops there if
that one had not lost its way. -/
theorem walk_grown {first later : Class} (kept : first.Kept later) (seen : List String) :
    (registry.walk scope seen first).1 <+: (registry'.walk scope' seen later).1 ∧
      ((∀ id, (registry.walk scope seen first).2 ≠ .unresolved id) →
        registry'.walk scope' seen later = registry.walk scope seen first) := by
  obtain ⟨names, last, stop, walked, trail, distinct, fresh, stops⟩ :=
    walk_follows registry scope seen first
  obtain ⟨last', trail', ends⟩ := trail.grown registered wider kept
  rw [walked, walk_trail trail' seen distinct fresh]
  refine ⟨List.prefix_append _ _, ?_⟩
  intro resolved
  -- The names passed are the same, so a name that closed a cycle was passed here too.
  rw [walk_stops (stops.grown registered ends resolved), List.append_nil]

end

end ClassRegistry

theorem Workspace.after_grown (workspace : Workspace) (event : Event) :
    workspace.registry.names <+: (workspace.after event).registry.names ∧
      workspace.tree.Grown (workspace.after event).tree := by
  cases event with
  | register name => exact ⟨workspace.registry.register_grown name, .refl _⟩
  | operate operation =>
      exact ⟨List.prefix_refl _, (workspace.tree.perform_change operation).grown⟩

theorem Workspace.run_grown (workspace : Workspace) (events : List Event) :
    workspace.registry.names <+: (workspace.run events).registry.names ∧
      workspace.tree.Grown (workspace.run events).tree := by
  induction events generalizing workspace with
  | nil => exact ⟨List.prefix_refl _, .refl _⟩
  | cons event rest ih =>
      obtain ⟨names, grown⟩ := workspace.after_grown event
      obtain ⟨names', grown'⟩ := ih (workspace.after event)
      exact ⟨names.trans names', grown.trans grown'⟩

/-- Superclass chains only grow. Whatever is registered and done to the tree,
each bound class has its chain as before at the front of its chain, and has it
unchanged if it ended at a root or in a cycle. -/
theorem superclass_chains_grow (workspace : Workspace) (events : List Event) (path : List String)
    (scope : Scope) (there : workspace.tree.scopeAt? path = some scope) (position : Nat)
    (name : String) (self : Class)
    (bound : scope.table.bindings[position]? = some (name, self.entry)) :
    let before := workspace.registry
    let after := (workspace.run events).registry
    ∃ scope' self', (workspace.run events).tree.scopeAt? path = some scope' ∧
      scope'.table.bindings[position]? = some (name, self'.entry) ∧ self.Kept self' ∧
      before.superclassChain self scope <+: after.superclassChain self' scope' ∧
      ((∀ id, before.chainEnd self scope ≠ .unresolved id) →
        after.superclassChain self' scope' = before.superclassChain self scope ∧
        after.chainEnd self' scope' = before.chainEnd self scope) := by
  intro before after
  obtain ⟨names, grown⟩ := workspace.run_grown events
  obtain ⟨scope', here, _, _, more⟩ := grown.scopeAt path scope there
  obtain ⟨entry, still, inner⟩ := more.position position name self.entry bound
  obtain ⟨self', found, kept⟩ := inner.class_kept rfl
  obtain ⟨longer, settled⟩ := ClassRegistry.walk_grown names more kept [self.name]
  have start : after.walk scope' [self'.name] self' = after.walk scope' [self.name] self' := by
    rw [kept.1]
  rw [entry.class_some self' found] at still
  refine ⟨scope', self', here, still, kept, ?_, ?_⟩
  · rw [ClassRegistry.superclassChain, ClassRegistry.superclassChain, start]
    exact longer
  · intro resolved
    have same := start.trans (settled resolved)
    exact ⟨congrArg Prod.fst same, congrArg Prod.snd same⟩

/-- A link to a number that is not yet given out leads on once its name is
registered and bound. A chain that leads into a cycle and one that comes to a root
stay as they are, also when the class on the cycle is to be bound anew. -/
theorem superclass_chains_grow_late :
    let self : Class := ⟨"A", some ⟨3⟩, .empty⟩
    let cyclic : Class := ⟨"C", some ⟨1⟩, .empty⟩
    let rooted : Class := ⟨"S", some ⟨2⟩, .empty⟩
    let scope : Scope := ⟨.program "main", ⟨[("A", self.entry), ("C", cyclic.entry),
      ("S", rooted.entry), ("D", .scope (.class "D" (some ⟨1⟩)) .empty),
      ("R", .scope (.class "R" none) .empty)], none⟩⟩
    let workspace : Workspace := ⟨⟨["A", "D", "R"]⟩, scope.tree⟩
    let events : List Event :=
      [.register "B", .operate (.at [] (.bind "B" (.scope (.class "B" none) .empty))),
        .operate (.at [] (.bind "D" (.scope (.class "D" none) .empty)))]
    let before := workspace.registry
    let after := (workspace.run events).registry
    workspace.tree.scopeAt? [] = some scope ∧
      scope.table.bindings[0]? = some ("A", self.entry) ∧
      before.chainEnd self scope = .unresolved ⟨3⟩ ∧
      before.chainEnd cyclic scope = .cycle "D" ∧ before.chainEnd rooted scope = .root ∧
      ∃ scope' self' cyclic' rooted', (workspace.run events).tree.scopeAt? [] = some scope' ∧
        scope'.table.bindings.take 3 =
          [("A", self'.entry), ("C", cyclic'.entry), ("S", rooted'.entry)] ∧
        before.superclassChain self scope <+: after.superclassChain self' scope' ∧
        after.superclassChain self' scope' = ["B"] ∧
        after.chainEnd self' scope' = .root ∧
        after.superclassChain cyclic' scope' = ["D"] ∧
        after.chainEnd cyclic' scope' = .cycle "D" ∧
        after.superclassChain rooted' scope' = ["R"] ∧
        after.chainEnd rooted' scope' = .root := by
  intro self cyclic rooted scope workspace events before after
  have there : workspace.tree.scopeAt? [] = some scope := rfl
  have grow := superclass_chains_grow workspace events [] scope there
  obtain ⟨scope', self', here, still, kept, longer, _⟩ := grow 0 "A" self rfl
  obtain ⟨_, cyclic', here', still', _, _, settled⟩ := grow 1 "C" cyclic rfl
  cases here.symm.trans here'
  obtain ⟨_, rooted', here'', still'', _, _, settled'⟩ := grow 2 "S" rooted rfl
  cases here.symm.trans here''
  have unresolved : before.chainEnd self scope = .unresolved ⟨3⟩ := by decide +kernel
  have closed : before.chainEnd cyclic scope = .cycle "D" := by decide +kernel
  have ended : before.chainEnd rooted scope = .root := by decide +kernel
  have below : before.superclassChain cyclic scope = ["D"] := by decide +kernel
  have above : before.superclassChain rooted scope = ["R"] := by decide +kernel
  obtain ⟨sameCyclic, closed'⟩ := settled (by rw [closed]; nofun)
  obtain ⟨sameRooted, ended'⟩ := settled' (by rw [ended]; nofun)
  have link : after.link? self' = some "B" := by
    rw [ClassRegistry.link?, kept.2]
    rfl
  have next : scope'.class? "B" = some ⟨"B", none, .empty⟩ := by
    cases here
    rfl
  have root : ClassRegistry.Stops after scope' ["B", "A"] ⟨"B", none, .empty⟩ .root := rfl
  have walked : after.walk scope' [self'.name] self' = (["B"], .root) := by
    rw [kept.1, ClassRegistry.walk_up link (by decide) next, ClassRegistry.walk_stops root]
  refine ⟨there, rfl, unresolved, closed, ended, scope', self', cyclic', rooted', here, ?_, longer,
    congrArg Prod.fst walked, congrArg Prod.snd walked, sameCyclic.trans below,
    closed'.trans closed, sameRooted.trans above, ended'.trans ended⟩
  rw [List.take_add_one, List.take_add_one, List.take_add_one, still, still', still'']
  rfl

end SymbolTable
