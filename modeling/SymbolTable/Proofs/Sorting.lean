import SymbolTable.Diagnostic.Basic

/-!
Diagnostics by position. What was given to a collection has one arrangement: unlocated
diagnostics first, then by where they start, and those that start at one place in the order
they were given. Sorting finds it, whatever was sorted before, since no sorting changes the
order at one place.
-/
namespace SymbolTable

namespace Diagnostic

def start? (diagnostic : Diagnostic) : Option UInt32 :=
  diagnostic.span?.map Span.start

/-- Those of the diagnostics that start at one place, or are all unlocated. -/
def startingAt (start? : Option UInt32) (diagnostics : List Diagnostic) : List Diagnostic :=
  diagnostics.filter fun diagnostic => diagnostic.start? == start?

/-- Diagnostics arranged by position, and by the order they were given where that is equal. -/
structure Arranged (given arranged : List Diagnostic) : Prop where
  same : arranged.Perm given
  unlocated_first : arranged.Pairwise fun first second =>
    second.start? = none → first.start? = none
  ascending : arranged.Pairwise fun first second =>
    ∀ a b, first.start? = some a → second.start? = some b → a ≤ b
  /-- Those of one place, and the unlocated ones, stand in the order they were given. -/
  stable : ∀ start?, startingAt start? arranged = startingAt start? given

theorem atOrBefore_iff (first second : Diagnostic) :
    first.atOrBefore second ↔ (second.start? = none → first.start? = none) ∧
      ∀ a b, first.start? = some a → second.start? = some b → a ≤ b := by
  unfold atOrBefore start?
  cases first.span? <;> cases second.span? <;> simp

theorem atOrBefore_of_same (first second : Diagnostic) (same : first.start? = second.start?) :
    first.atOrBefore second := by
  rw [atOrBefore_iff, same]
  refine ⟨id, ?_⟩
  intro a b left right
  rw [Option.some.inj (left.symm.trans right)]
  exact UInt32.le_refl b

theorem atOrBefore_antisymm (first second : Diagnostic) (forth : first.atOrBefore second)
    (back : second.atOrBefore first) : first.start? = second.start? := by
  rw [atOrBefore_iff] at forth back
  cases left : first.start? with
  | none => exact (back.1 left).symm
  | some a =>
      cases right : second.start? with
      | none => exact absurd (left.symm.trans (forth.1 right)) (Option.some_ne_none a)
      | some b => rw [UInt32.le_antisymm (forth.2 a b left right) (back.2 b a right left)]

@[simp]
theorem startingAt_append (start? : Option UInt32) (front behind : List Diagnostic) :
    startingAt start? (front ++ behind) = startingAt start? front ++ startingAt start? behind :=
  List.filter_append ..

theorem mem_startingAt (start? : Option UInt32) (diagnostics : List Diagnostic)
    (diagnostic : Diagnostic) :
    diagnostic ∈ startingAt start? diagnostics ↔
      diagnostic ∈ diagnostics ∧ diagnostic.start? = start? := by
  simp [startingAt]

theorem startingAt_here (first : Diagnostic) (rest : List Diagnostic) :
    startingAt first.start? (first :: rest) = first :: startingAt first.start? rest := by
  simp [startingAt]

/-- Those of one place may stand in any order, so they keep theirs. -/
theorem startingAt_mergeSort (start? : Option UInt32) (diagnostics : List Diagnostic) :
    startingAt start? (diagnostics.mergeSort atOrBefore) = startingAt start? diagnostics := by
  have level : (startingAt start? diagnostics).Pairwise fun first second =>
      first.atOrBefore second := by
    apply List.pairwise_of_forall_mem_list
    intro first left second right
    apply atOrBefore_of_same
    rw [((mem_startingAt _ _ _).mp left).2, ((mem_startingAt _ _ _).mp right).2]
  have kept : (startingAt start? diagnostics).Sublist (diagnostics.mergeSort atOrBefore) :=
    List.sublist_mergeSort atOrBefore_trans atOrBefore_total level List.filter_sublist
  have inside : (startingAt start? diagnostics).Sublist
      (startingAt start? (diagnostics.mergeSort atOrBefore)) := by
    have chosen := kept.filter fun diagnostic => diagnostic.start? == start?
    rwa [startingAt, List.filter_filter, List.filter_congr (fun _ _ => Bool.and_self _)] at chosen
  have sizes := ((List.mergeSort_perm diagnostics atOrBefore).filter
    fun diagnostic => diagnostic.start? == start?).length_eq
  exact (inside.eq_of_length sizes.symm).symm

/-- The first in order of position may stand before all. -/
theorem head_atOrBefore (first : Diagnostic) (rest : List Diagnostic)
    (ordered : (first :: rest).Pairwise fun first second => first.atOrBefore second)
    (diagnostic : Diagnostic) (inside : diagnostic ∈ first :: rest) :
    first.atOrBefore diagnostic := by
  rcases List.mem_cons.mp inside with rfl | behind
  · exact atOrBefore_of_same diagnostic diagnostic rfl
  · exact List.rel_of_pairwise_cons ordered behind

theorem mem_of_alike (left right : List Diagnostic)
    (alike : ∀ start?, startingAt start? left = startingAt start? right)
    (diagnostic : Diagnostic) (inside : diagnostic ∈ left) : diagnostic ∈ right := by
  have here := (mem_startingAt diagnostic.start? left diagnostic).mpr ⟨inside, rfl⟩
  rw [alike] at here
  exact ((mem_startingAt _ _ _).mp here).1

/-- The order of position, and the order at each place, leave no choice. -/
theorem ordered_unique (left right : List Diagnostic)
    (leftOrdered : left.Pairwise fun first second => first.atOrBefore second)
    (rightOrdered : right.Pairwise fun first second => first.atOrBefore second)
    (alike : ∀ start?, startingAt start? left = startingAt start? right) : left = right := by
  induction left generalizing right with
  | nil =>
      cases right with
      | nil => rfl
      | cons first rest =>
          cases mem_of_alike _ _ (fun start? => (alike start?).symm) first List.mem_cons_self
  | cons first rest ih =>
      have firstInside := mem_of_alike _ _ alike first List.mem_cons_self
      cases right with
      | nil => cases firstInside
      | cons other others =>
          have otherInside : other ∈ first :: rest :=
            mem_of_alike _ _ (fun start? => (alike start?).symm) other List.mem_cons_self
          -- Each head stands somewhere in the other list, so neither place is behind the other.
          have place : first.start? = other.start? :=
            atOrBefore_antisymm first other
              (head_atOrBefore first rest leftOrdered other otherInside)
              (head_atOrBefore other others rightOrdered first firstInside)
          -- And of one place, both lists have the same one first.
          have heads := alike first.start?
          rw [startingAt_here, place, startingAt_here] at heads
          obtain rfl := (List.cons.inj heads).1
          rw [ih others leftOrdered.tail rightOrdered.tail]
          intro start?
          have whole : startingAt start? ([first] ++ rest) = startingAt start? ([first] ++ others) :=
            alike start?
          rw [startingAt_append, startingAt_append] at whole
          exact List.append_cancel_left whole

theorem mergeSort_ordered (diagnostics : List Diagnostic) :
    (diagnostics.mergeSort atOrBefore).Pairwise fun first second => first.atOrBefore second :=
  List.pairwise_mergeSort atOrBefore_trans atOrBefore_total diagnostics

theorem arranged_iff (given arranged : List Diagnostic) :
    Arranged given arranged ↔ arranged = given.mergeSort atOrBefore := by
  have ordered := mergeSort_ordered given
  constructor
  · intro arrangement
    apply ordered_unique _ _ _ ordered
    · intro start?
      rw [arrangement.stable, startingAt_mergeSort]
    · apply (arrangement.unlocated_first.and arrangement.ascending).imp
      intro first second before
      exact (atOrBefore_iff first second).mpr before
  · rintro rfl
    constructor
    case same => exact List.mergeSort_perm given atOrBefore
    case unlocated_first =>
      exact ordered.imp fun before => ((atOrBefore_iff _ _).mp before).1
    case ascending =>
      exact ordered.imp fun before => ((atOrBefore_iff _ _).mp before).2
    case stable => exact fun start? => startingAt_mergeSort start? given

end Diagnostic

namespace Diagnostics

open Diagnostic (Arranged startingAt)

inductive Request where
  | add (diagnostic : Diagnostic)
  | sort

def Request.added : Request → List Diagnostic
  | .add diagnostic => [diagnostic]
  | .sort => []

def after (diagnostics : Diagnostics) : Request → Diagnostics
  | .add diagnostic => diagnostics.add diagnostic
  | .sort => diagnostics.sort

def run (diagnostics : Diagnostics) (requests : List Request) : Diagnostics :=
  requests.foldl after diagnostics

def added (requests : List Request) : List Diagnostic :=
  requests.flatMap Request.added

theorem run_adds (diagnostics : Diagnostics) (more : List Diagnostic) :
    diagnostics.run (more.map .add) = ⟨diagnostics.all ++ more⟩ := by
  induction more generalizing diagnostics with
  | nil => rw [List.append_nil]; rfl
  | cons diagnostic rest ih =>
      have longer := ih (diagnostics.add diagnostic)
      rwa [add, List.append_assoc] at longer

/-- No request changes the order at one place. -/
theorem after_startingAt (diagnostics : Diagnostics) (request : Request)
    (start? : Option UInt32) :
    startingAt start? (diagnostics.after request).all =
      startingAt start? (diagnostics.all ++ request.added) := by
  cases request with
  | add diagnostic => rfl
  | sort =>
      rw [Request.added, List.append_nil]
      exact Diagnostic.startingAt_mergeSort start? diagnostics.all

theorem run_startingAt (diagnostics : Diagnostics) (requests : List Request)
    (start? : Option UInt32) :
    startingAt start? (diagnostics.run requests).all =
      startingAt start? (diagnostics.all ++ added requests) := by
  induction requests generalizing diagnostics with
  | nil => rw [added, List.flatMap_nil, List.append_nil]; rfl
  | cons request rest ih =>
      have later := ih (diagnostics.after request)
      rw [Diagnostic.startingAt_append, after_startingAt, ← Diagnostic.startingAt_append,
        List.append_assoc] at later
      exact later

theorem run_append (diagnostics : Diagnostics) (requests more : List Request) :
    diagnostics.run (requests ++ more) = (diagnostics.run requests).run more :=
  List.foldl_append

theorem run_sort (diagnostics : Diagnostics) (requests : List Request) :
    diagnostics.run (requests ++ [.sort]) = sort ⟨diagnostics.all ++ added requests⟩ := by
  rw [run_append]
  apply congrArg Diagnostics.mk
  apply Diagnostic.ordered_unique
  · exact Diagnostic.mergeSort_ordered _
  · exact Diagnostic.mergeSort_ordered _
  · intro start?
    rw [Diagnostic.startingAt_mergeSort, Diagnostic.startingAt_mergeSort, run_startingAt]

theorem sort_sort (diagnostics : Diagnostics) : diagnostics.sort.sort = diagnostics.sort :=
  congrArg mk (List.mergeSort_of_pairwise (Diagnostic.mergeSort_ordered diagnostics.all))

/-- Diagnostics may be sorted at any time: with a sorting at the end, it comes to the same
as to add them all first and sort once. What comes out is the arrangement of all that was
given, the only one there is; it stays when it is sorted again, and nothing that is counted
changes with any sorting. -/
theorem sorting_deferred (diagnostics : Diagnostics) (requests : List Request) :
    let now := diagnostics.run requests
    let sorted := diagnostics.run (requests ++ [.sort])
    sorted = diagnostics.run ((added requests).map .add ++ [.sort]) ∧
      (∀ list, Arranged (diagnostics.all ++ added requests) list ↔ list = sorted.all) ∧
      now.sort.sort = now.sort ∧ now.sort.size = now.size ∧
      now.sort.errorCount = now.errorCount ∧ now.sort.hasErrors = now.hasErrors := by
  intro now sorted
  have same : sorted = sort ⟨diagnostics.all ++ added requests⟩ := diagnostics.run_sort requests
  have permuted : now.sort.all.Perm now.all := List.mergeSort_perm now.all Diagnostic.atOrBefore
  refine ⟨?_, ?_, now.sort_sort, permuted.length_eq, permuted.countP_eq _, permuted.any_eq⟩
  · rw [same, run_append, run_adds]
    rfl
  · intro list
    rw [same]
    exact Diagnostic.arranged_iff _ list

end Diagnostics
end SymbolTable
