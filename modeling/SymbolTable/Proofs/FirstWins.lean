import SymbolTable.Session.Blueprint
import SymbolTable.Proofs.WellFormed

/-!
A scope as the table of what it was offered. A refused offer leaves no trace, not
even its name, so what a scope holds is read off the answers alone: the bindings
are the offers taken, in the order of the offers, and a name stands for the one
offer that was taken under it.
-/
namespace SymbolTable

/-- A binding name with an entry, whose own name may be another. -/
abbrev Offer := String × Entry

namespace Scope

inductive Fresh : Scope → Prop where
  | program {name scope} : newProgram name = .ok scope → Fresh scope
  | block {label scope} : newBlock label = .ok scope → Fresh scope
  | method {name returns} {method : Method} : Method.new name returns = .ok method →
      Fresh method.scope
  | class {name} {self : Class} : Class.new name = .ok self → Fresh self.scope

def refusal? (scope : Scope) (offer : Offer) : Option Refusal :=
  match scope.bind offer.1 offer.2 with
  | .ok _ => none
  | .error refusal => some refusal

def offerAll (scope : Scope) : List Offer → Scope
  | [] => scope
  | offer :: rest => (scope.offer offer.1 offer.2).offerAll rest

def refusals (scope : Scope) : List Offer → List (Option Refusal)
  | [] => []
  | offer :: rest => scope.refusal? offer :: (scope.offer offer.1 offer.2).refusals rest

def taken (scope : Scope) (offers : List Offer) : List Offer :=
  ((offers.zip (scope.refusals offers)).filter fun answered => answered.2.isNone).map Prod.fst

theorem admits_iff (scope : Scope) (entry : Entry) :
    scope.admits entry.kind ↔ (scope.kind = .class → entry.kind ≠ .block) := by
  unfold admits
  cases owned : scope.kind with
  | «class» =>
      cases entry with
      | leaf declared => simp [Entry.kind, Kind.isClassMember]
      | scope header table => cases header <;> simp [Entry.kind, Header.kind, Kind.isClassMember]
  | «variable» | method | block | program => simp

theorem refusal_none_iff (scope : Scope) (offer : Offer) :
    scope.refusal? offer = none ↔
      offer.1 ≠ "" ∧ scope.admits offer.2.kind ∧ offer.1 ∉ scope.table.names := by
  rw [← scope.table.lookup_none_iff]
  constructor
  · intro taken
    unfold refusal? at taken
    split at taken
    · rename_i bound made
      obtain ⟨admitted, named, fresh, _⟩ := scope.bind_ok bound offer.1 offer.2 made
      exact ⟨named, admitted, fresh⟩
    · cases taken
  · rintro ⟨named, admitted, fresh⟩
    rw [refusal?, scope.bind_free offer.1 offer.2 admitted named fresh]

theorem offer_taken (scope : Scope) (offer : Offer) (taken : scope.refusal? offer = none) :
    scope.offer offer.1 offer.2 =
      { scope with table := scope.table.push offer.1 offer.2 } := by
  unfold refusal? at taken
  split at taken
  · rename_i bound made
    obtain ⟨_, _, _, same⟩ := scope.bind_ok bound offer.1 offer.2 made
    rw [Scope.offer, made, same]
  · cases taken

theorem offer_refused (scope : Scope) (offer : Offer) (refused : scope.refusal? offer ≠ none) :
    scope.offer offer.1 offer.2 = scope := by
  unfold refusal? at refused
  split at refused
  · contradiction
  · rename_i refusal failed
    rw [Scope.offer, failed]

theorem offer_owner (scope : Scope) (offer : Offer) :
    (scope.offer offer.1 offer.2).owner = scope.owner := by
  by_cases free : scope.refusal? offer = none
  · rw [scope.offer_taken offer free]
  · rw [scope.offer_refused offer free]

theorem offerAll_owner (scope : Scope) (offers : List Offer) :
    (scope.offerAll offers).owner = scope.owner := by
  induction offers generalizing scope with
  | nil => rfl
  | cons offer rest ih => exact (ih _).trans (scope.offer_owner offer)

theorem taken_cons (scope : Scope) (offer : Offer) (rest : List Offer) :
    scope.taken (offer :: rest) =
      (if scope.refusal? offer = none then [offer] else []) ++
        (scope.offer offer.1 offer.2).taken rest := by
  cases answer : scope.refusal? offer <;> simp [taken, refusals, answer]

/-- What a scope holds after offers in a row. -/
theorem offerAll_bindings (scope : Scope) (offers : List Offer) :
    (scope.offerAll offers).table.bindings = scope.table.bindings ++ scope.taken offers := by
  induction offers generalizing scope with
  | nil => simp [offerAll, taken, refusals]
  | cons offer rest ih =>
      rw [offerAll, ih, taken_cons]
      by_cases free : scope.refusal? offer = none
      · rw [if_pos free, scope.offer_taken offer free]
        simp [Table.push]
      · rw [if_neg free, scope.offer_refused offer free, List.nil_append]

theorem offerAll_distinct (scope : Scope) (offers : List Offer)
    (distinct : scope.table.names.Nodup) : (scope.offerAll offers).table.names.Nodup := by
  induction offers generalizing scope with
  | nil => exact distinct
  | cons offer rest ih =>
      apply ih
      by_cases free : scope.refusal? offer = none
      · obtain ⟨_, _, fresh⟩ := (scope.refusal_none_iff offer).mp free
        rw [scope.offer_taken offer free, Table.names_push]
        refine List.nodup_append.mpr ⟨distinct, by simp, ?_⟩
        intro old member new added same
        rw [List.mem_singleton] at added
        exact fresh (added ▸ same ▸ member)
      · rwa [scope.offer_refused offer free]

theorem refusals_length (scope : Scope) (offers : List Offer) :
    (scope.refusals offers).length = offers.length := by
  induction offers generalizing scope with
  | nil => rfl
  | cons offer rest ih => simp [refusals, ih]

/-- An offer is answered by the scope that the offers before it have made. -/
theorem refusals_at (scope : Scope) (offers : List Offer) (position : Nat) :
    (scope.refusals offers)[position]? =
      offers[position]?.map (scope.offerAll (offers.take position)).refusal? := by
  induction offers generalizing scope position with
  | nil => rfl
  | cons offer rest ih =>
      cases position with
      | zero => rfl
      | succ position => simpa [refusals, offerAll] using ih _ position

theorem refusals_take (scope : Scope) (offers : List Offer) (count : Nat) :
    scope.refusals (offers.take count) = (scope.refusals offers).take count := by
  induction offers generalizing scope count with
  | nil => simp [refusals]
  | cons offer rest ih =>
      cases count with
      | zero => rfl
      | succ count => simp [refusals, ih]

theorem mem_taken (scope : Scope) (offers : List Offer) (offer : Offer) :
    offer ∈ scope.taken offers ↔ ∃ position : Nat, offers[position]? = some offer ∧
      (scope.refusals offers)[position]? = some none := by
  rw [taken, List.mem_map]
  constructor
  · rintro ⟨⟨found, answer⟩, member, rfl⟩
    obtain ⟨zipped, free⟩ := List.mem_filter.mp member
    obtain ⟨position, there⟩ := List.mem_iff_getElem?.mp zipped
    obtain ⟨offered, answered⟩ := List.getElem?_zip_eq_some.mp there
    exact ⟨position, offered, answered.trans (congrArg some (Option.isNone_iff_eq_none.mp free))⟩
  · rintro ⟨position, offered, answered⟩
    have zipped : (offers.zip (scope.refusals offers))[position]? = some (offer, none) :=
      List.getElem?_zip_eq_some.mpr ⟨offered, answered⟩
    exact ⟨(offer, none), List.mem_filter.mpr ⟨List.mem_of_getElem? zipped, rfl⟩, rfl⟩

theorem taken_length (scope : Scope) (offers : List Offer) :
    (scope.taken offers).length = (scope.refusals offers).countP Option.isNone := by
  induction offers generalizing scope with
  | nil => rfl
  | cons offer rest ih =>
      rw [taken_cons, List.length_append, ih, refusals, List.countP_cons]
      cases scope.refusal? offer <;> simp [Nat.add_comm]

theorem Fresh.table {scope : Scope} (fresh : scope.Fresh) : scope.table = .empty := by
  cases fresh with
  | program made | block made =>
      obtain ⟨_, same⟩ := entryName_map _ _ _ made
      rw [same]
  | method made =>
      obtain ⟨_, same⟩ := entryName_map _ _ _ made
      rw [same]
      rfl
  | «class» made =>
      obtain ⟨_, same⟩ := entryName_map _ _ _ made
      rw [same]
      rfl

/-- The scope `after` is what `scope` becomes by offers that get these answers: the
table of the offers taken, of which each is the first under its name that could be. -/
structure FirstWins (scope after : Scope) (offers : List Offer)
    (answers : List (Option Refusal)) : Prop where
  owner : after.owner = scope.owner
  answered : answers.length = offers.length
  taken : ∀ (position : Nat) name entry, offers[position]? = some (name, entry) →
    (answers[position]? = some none ↔
      name ≠ "" ∧ (scope.kind = .class → entry.kind ≠ .block) ∧
        ∀ earlier < position, ∀ other, offers[earlier]? = some (name, other) →
          answers[earlier]? ≠ some none)
  bindings : after.table.bindings =
    ((offers.zip answers).filter fun answered => answered.2.isNone).map Prod.fst
  lookup : ∀ name entry, after.lookup? name = some entry ↔
    ∃ position : Nat, offers[position]? = some (name, entry) ∧ answers[position]? = some none
  contains : ∀ name, after.table.contains name = true ↔
    ∃ (position : Nat) (entry : Entry), offers[position]? = some (name, entry) ∧
      answers[position]? = some none
  place : ∀ name entry, after.lookup? name = some entry ↔
    ∃ position : Nat, after.table.bindings[position]? = some (name, entry) ∧
      ∀ other, after.table.names[other]? = some name → other = position
  size : after.table.size = answers.countP Option.isNone
  isEmpty : after.table.isEmpty = true ↔ ∀ answer ∈ answers, answer ≠ none

/-- A name of the scope that earlier offers have made was taken by one of them. -/
theorem names_before (scope : Scope) (bare : scope.table.bindings = []) (offers : List Offer)
    (position : Nat) (name : String) :
    name ∈ (scope.offerAll (offers.take position)).table.names ↔
      ∃ earlier < position, ∃ other, offers[earlier]? = some (name, other) ∧
        (scope.refusals offers)[earlier]? = some none := by
  rw [Table.names, offerAll_bindings, bare, List.nil_append, List.mem_map]
  constructor
  · rintro ⟨⟨found, other⟩, member, rfl⟩
    obtain ⟨earlier, offered, answered⟩ := (scope.mem_taken _ _).mp member
    rw [refusals_take] at answered
    have before : earlier < position := by
      have inside := (List.getElem?_eq_some_iff.mp offered).1
      rw [List.length_take] at inside
      omega
    rw [List.getElem?_take_of_lt before] at offered answered
    exact ⟨earlier, before, other, offered, answered⟩
  · rintro ⟨earlier, before, other, offered, answered⟩
    refine ⟨(name, other), (scope.mem_taken _ _).mpr ⟨earlier, ?_, ?_⟩, rfl⟩
    · rw [List.getElem?_take_of_lt before, offered]
    · rw [refusals_take, List.getElem?_take_of_lt before, answered]

end Scope

theorem Table.lookup_iff_mem {Value : Type} (table : Table Value) (distinct : table.names.Nodup)
    (name : String) (value : Value) :
    table.lookup? name = some value ↔ (name, value) ∈ table.bindings := by
  constructor
  · exact table.lookup_mem name value
  · exact table.lookup_of_mem distinct name value

/-- With distinct names a binding stands at the only position that has its name. -/
theorem Table.mem_iff_place {Value : Type} (table : Table Value) (distinct : table.names.Nodup)
    (name : String) (value : Value) :
    (name, value) ∈ table.bindings ↔
      ∃ position : Nat, table.bindings[position]? = some (name, value) ∧
        ∀ other, table.names[other]? = some name → other = position := by
  constructor
  · intro bound
    obtain ⟨position, there⟩ := List.mem_iff_getElem?.mp bound
    have named : table.names[position]? = some name := by simp [names, there]
    refine ⟨position, there, fun other here => ?_⟩
    have inside := (List.getElem?_eq_some_iff.mp here).1
    exact (List.getElem?_inj inside distinct).mp (here.trans named.symm)
  · rintro ⟨position, there, _⟩
    exact List.mem_of_getElem? there

/-- The first declaration of a name wins: in a scope of any kind, whatever it is
offered, an offer is taken if it has a name, is of a kind that the scope admits,
and no offer before it was taken under its name; and the scope is the table of
the offers taken. -/
theorem first_offer_wins (scope : Scope) (fresh : scope.Fresh) (offers : List Offer) :
    scope.FirstWins (scope.offerAll offers) offers (scope.refusals offers) := by
  have bare : scope.table.bindings = [] := by rw [fresh.table]; rfl
  have bindings : (scope.offerAll offers).table.bindings = scope.taken offers := by
    rw [scope.offerAll_bindings, bare, List.nil_append]
  have distinct : (scope.offerAll offers).table.names.Nodup := by
    apply scope.offerAll_distinct
    rw [fresh.table]
    exact List.nodup_nil
  have lookup : ∀ name entry, (scope.offerAll offers).lookup? name = some entry ↔
      ∃ position : Nat, offers[position]? = some (name, entry) ∧
        (scope.refusals offers)[position]? = some none := by
    intro name entry
    rw [← scope.mem_taken, ← bindings]
    exact Table.lookup_iff_mem _ distinct name entry
  constructor
  case owner => exact scope.offerAll_owner offers
  case answered => exact scope.refusals_length offers
  case bindings => exact bindings
  case lookup => exact lookup
  case taken =>
    intro position name entry offered
    have same : (scope.offerAll (offers.take position)).kind = scope.kind := by
      rw [Scope.kind, scope.offerAll_owner, Scope.kind]
    rw [scope.refusals_at, offered, Option.map_some, Option.some.injEq, Scope.refusal_none_iff,
      Scope.admits_iff, same, scope.names_before bare]
    simp only [not_exists, not_and, ne_eq]
  case contains =>
    intro name
    rw [Table.contains, Option.isSome_iff_exists]
    constructor
    · rintro ⟨entry, found⟩
      obtain ⟨position, taken⟩ := (lookup name entry).mp found
      exact ⟨position, entry, taken⟩
    · rintro ⟨position, entry, taken⟩
      exact ⟨entry, (lookup name entry).mpr ⟨position, taken⟩⟩
  case place =>
    intro name entry
    exact (Table.lookup_iff_mem _ distinct name entry).trans
      (Table.mem_iff_place _ distinct name entry)
  case size => rw [Table.size, bindings, scope.taken_length]
  case isEmpty =>
    rw [Table.isEmpty, bindings, List.isEmpty_iff_length_eq_zero, scope.taken_length,
      List.countP_eq_zero]
    simp only [Option.isNone_iff_eq_none, ne_eq]

/-- A class refuses a block and takes a field under the same name, refuses the name
from then on, and takes the entry refused under another. -/
theorem first_offer_wins_class :
    let point : Scope := ⟨.nested (.class "Point" none), .empty⟩
    let x : Entry := .leaf ⟨"x", .int⟩
    let y : Entry := .leaf ⟨"y", .float⟩
    let block : Entry := .scope (.block "block#0") .empty
    let offers : List Offer := [("b", block), ("", x), ("b", x), ("b", y), ("x", y)]
    point.Fresh ∧
      point.refusals offers = [some (.disallowedKind "b" .block "Point"),
        some (.emptyName "Point" .class), none, some (.duplicateName "b" "Point" .class), none] ∧
      point.FirstWins (point.offerAll offers) offers (point.refusals offers) ∧
      (point.offerAll offers).table.bindings = [("b", x), ("x", y)] := by
  intro point x y block offers
  have fresh : point.Fresh := @Scope.Fresh.class "Point" ⟨"Point", none, .empty⟩ rfl
  have wins := first_offer_wins point fresh offers
  exact ⟨fresh, rfl, wins, wins.bindings⟩

end SymbolTable
