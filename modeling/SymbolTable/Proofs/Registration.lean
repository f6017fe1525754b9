import Mathlib.Data.List.Induction
import SymbolTable.Proofs.Registry

/-!
Registrations in a row. The registry holds the names in the order in which they came
first, and a name's number is its position there: so the numbers count up from zero,
a name gets the same number whenever it comes again, and names and numbers stand for
each other, as long as the positions are words of 32 bits.
-/
namespace SymbolTable.ClassRegistry

def answers (registry : ClassRegistry) : List String → List ClassId
  | [] => []
  | name :: rest => (registry.register name).1 :: (registry.register name).2.answers rest

/-- A registry that was fresh before registrations in a row, and the answers to them. -/
structure Numbers (registry : ClassRegistry) (names : List String) (answers : List ClassId) :
    Prop where
  answered : answers.length = names.length
  size : registry.size = names.eraseDups.length
  /-- The numbers, each where it is given out first. -/
  counted : answers.eraseDups.map (fun id => id.number.toNat) = List.range registry.size
  repeated : ∀ earlier later : Nat, names[later]? = names[earlier]? →
    answers[later]? = answers[earlier]?
  kept : ∀ (position : Nat) name, names[position]? = some name →
    answers[position]? = registry.idOf? name
  inverse : ∀ name id, registry.idOf? name = some id ↔ registry.nameOf? id = some name
  beyond : ∀ id : ClassId, registry.size ≤ id.number.toNat → registry.nameOf? id = none
  absent : ∀ name, name ∉ names → registry.idOf? name = none
  listed : ∀ id name, (id, name) ∈ registry.all ↔ registry.idOf? name = some id
  ordered : registry.all.map (fun numbered => numbered.1.number.toNat) = List.range registry.size

section Duplicates

variable {Value : Type} [DecidableEq Value]

theorem eraseDups_known (values : List Value) (value : Value) (known : value ∈ values) :
    (values ++ [value]).eraseDups = values.eraseDups := by
  simp [List.eraseDups_append, List.removeAll, known]

theorem eraseDups_new (values : List Value) (value : Value) (new : value ∉ values) :
    (values ++ [value]).eraseDups = values.eraseDups ++ [value] := by
  simp [List.eraseDups_append, List.removeAll, new, List.eraseDups_cons]

end Duplicates

theorem registerAll_append (registry : ClassRegistry) (names more : List String) :
    registry.registerAll (names ++ more) = (registry.registerAll names).registerAll more :=
  List.foldl_append

theorem registerAll_last (registry : ClassRegistry) (names : List String) (name : String) :
    registry.registerAll (names ++ [name]) = ((registry.registerAll names).register name).2 :=
  registry.registerAll_append names [name]

theorem registerAll_grown (registry : ClassRegistry) (names : List String) :
    registry.names <+: (registry.registerAll names).names := by
  induction names generalizing registry with
  | nil => exact List.prefix_refl _
  | cons name rest ih => exact (registry.register_grown name).trans (ih _)

theorem answers_length (registry : ClassRegistry) (names : List String) :
    (registry.answers names).length = names.length := by
  induction names generalizing registry with
  | nil => rfl
  | cons name rest ih => rw [answers, List.length_cons, ih, List.length_cons]

theorem answers_last (registry : ClassRegistry) (names : List String) (name : String) :
    registry.answers (names ++ [name]) =
      registry.answers names ++ [((registry.registerAll names).register name).1] := by
  induction names generalizing registry with
  | nil => rfl
  | cons first rest ih =>
      rw [List.cons_append, answers, ih, answers, List.cons_append]
      rfl

theorem answers_take (registry : ClassRegistry) (names : List String) (count : Nat) :
    (registry.answers names).take count = registry.answers (names.take count) := by
  induction names generalizing registry count with
  | nil => simp [answers]
  | cons name rest ih =>
      cases count with
      | zero => rfl
      | succ count => simp [answers, ih]

/-- Every answer is the number that its name has ever after. -/
theorem answers_kept (registry : ClassRegistry) (names : List String) :
    (registry.answers names).map some = names.map (registry.registerAll names).idOf? := by
  induction names generalizing registry with
  | nil => rfl
  | cons name rest ih =>
      have first : (registry.registerAll (name :: rest)).idOf? name =
          some (registry.register name).1 :=
        idOf_grown ((registry.register name).2.registerAll_grown rest) (registry.idOf_register name)
      rw [answers, List.map_cons, List.map_cons, first, ih]
      rfl

theorem answers_at (registry : ClassRegistry) (names : List String) (position : Nat)
    (name : String) (named : names[position]? = some name) :
    (registry.answers names)[position]? = (registry.registerAll names).idOf? name := by
  have answered := congrArg (fun answers => answers[position]?) (registry.answers_kept names)
  simp only [List.getElem?_map, named, Option.map_some] at answered
  obtain ⟨id, found, same⟩ := Option.map_eq_some_iff.mp answered
  rw [found, same]

theorem mem_answers (registry : ClassRegistry) (names : List String) (id : ClassId) :
    id ∈ registry.answers names ↔
      ∃ name ∈ names, (registry.registerAll names).idOf? name = some id := by
  have inside : some id ∈ (registry.answers names).map some ↔ id ∈ registry.answers names := by
    simp
  rw [← inside, answers_kept, List.mem_map]

theorem mem_registered (names : List String) (name : String) :
    name ∈ (empty.registerAll names).names ↔ name ∈ names := by
  rw [mem_registerAll]
  exact or_iff_right List.not_mem_nil

/-- The names stand in the order of their first registration. -/
theorem names_registered (names : List String) :
    (empty.registerAll names).names = names.eraseDups := by
  induction names using List.reverseRecOn with
  | nil => rfl
  | append_singleton names name ih =>
      rw [registerAll_last]
      by_cases known : name ∈ names
      · rw [register_known _ _ ((mem_registered names name).mpr known), ih,
          eraseDups_known names name known]
      · rw [register_new _ _ (mt (mem_registered names name).mp known), ih,
          eraseDups_new names name known]

theorem numbered_toNat {position : Nat} (fits : position < UInt32.size) :
    (numbered position).number.toNat = position :=
  UInt32.toNat_ofNat_of_lt' fits

/-- Among distinct names, the one at the position of a number has that number. -/
theorem idOf_nameOf (registry : ClassRegistry) (distinct : registry.names.Nodup) (id : ClassId)
    (name : String) (found : registry.nameOf? id = some name) : registry.idOf? name = some id := by
  obtain ⟨inside, here⟩ := List.getElem?_eq_some_iff.mp found
  refine (registry.idOf_some name id).mpr ⟨id.number.toNat, ?_, ?_⟩
  · refine List.idxOf?_eq_some_iff.mpr ⟨inside, here, ?_⟩
    intro before nearer same
    have unique := distinct.getElem_inj_iff.mp (same.trans here.symm)
    omega
  · exact congrArg ClassId.mk UInt32.ofNat_toNat

/-- The step adds a number above all those given out before, or none. -/
theorem answers_counted (names : List String)
    (fits : (empty.registerAll names).size ≤ UInt32.size) :
    (empty.answers names).eraseDups =
      (List.range (empty.registerAll names).size).map numbered := by
  induction names using List.reverseRecOn with
  | nil => rfl
  | append_singleton names name ih =>
      rw [registerAll_last] at fits
      rw [answers_last, registerAll_last]
      have given := (empty.registerAll names).idOf_register name
      by_cases known : name ∈ names
      · have same := register_known _ _ ((mem_registered names name).mpr known)
        rw [same] at fits given
        rw [same, eraseDups_known, ih fits]
        exact (empty.mem_answers names _).mpr ⟨name, known, given⟩
      · have grown := register_new _ _ (mt (mem_registered names name).mp known)
        have longer : ((empty.registerAll names).register name).2.size =
            (empty.registerAll names).size + 1 := by
          rw [grown]
          simp [size]
        rw [longer] at fits
        have new : ((empty.registerAll names).register name).1 ∉ empty.answers names := by
          intro before
          obtain ⟨other, _, found⟩ := (empty.mem_answers names _).mp before
          have there := nameOf_idOf _ (Nat.le_of_succ_le fits) _ _ found
          rw [grown, nameOf?, numbered_toNat fits] at there
          exact absurd (List.getElem?_eq_some_iff.mp there).1 (Nat.lt_irrefl _)
        rw [longer, eraseDups_new _ _ new, ih (Nat.le_of_succ_le fits), List.range_succ,
          List.map_append, grown]
        rfl

theorem mem_all (registry : ClassRegistry) (fits : registry.size ≤ UInt32.size) (id : ClassId)
    (name : String) : (id, name) ∈ registry.all ↔ registry.nameOf? id = some name := by
  rw [all, List.mem_map]
  constructor
  · rintro ⟨⟨found, position⟩, member, same⟩
    cases same
    have there := List.mem_zipIdx_iff_getElem?.mp member
    have inside := (List.getElem?_eq_some_iff.mp there).1
    rwa [nameOf?, numbered_toNat (Nat.lt_of_lt_of_le inside fits)]
  · intro found
    refine ⟨(name, id.number.toNat), List.mem_zipIdx_iff_getElem?.mpr found, ?_⟩
    exact congrArg (fun number => (ClassId.mk number, name)) UInt32.ofNat_toNat

theorem all_ordered (registry : ClassRegistry) (fits : registry.size ≤ UInt32.size) :
    registry.all.map (fun numbered => numbered.1.number.toNat) = List.range registry.size := by
  have positions : registry.names.zipIdx.map Prod.snd = List.range registry.size := by
    rw [List.zipIdx_map_snd, ← List.range_eq_range', size]
  rw [← positions, all, List.map_map]
  apply List.map_congr_left
  rintro ⟨name, position⟩ member
  have inside := (List.getElem?_eq_some_iff.mp (List.mem_zipIdx_iff_getElem?.mp member)).1
  exact numbered_toNat (Nat.lt_of_lt_of_le inside fits)

theorem registered_numbers (names : List String)
    (fits : (empty.registerAll names).size ≤ UInt32.size) :
    (empty.registerAll names).Numbers names (empty.answers names) := by
  have distinct := empty.nodup_registerAll names List.nodup_nil
  have inverse : ∀ name id, (empty.registerAll names).idOf? name = some id ↔
      (empty.registerAll names).nameOf? id = some name :=
    fun name id => ⟨nameOf_idOf _ fits name id, idOf_nameOf _ distinct id name⟩
  constructor
  case answered => exact empty.answers_length names
  case size => rw [size, names_registered]
  case counted =>
    rw [answers_counted names fits, List.map_map]
    refine (List.map_congr_left ?_).trans (List.map_id _)
    intro position member
    exact numbered_toNat (Nat.lt_of_lt_of_le (List.mem_range.mp member) fits)
  case repeated =>
    intro earlier later same
    cases named : names[later]? with
    | none =>
        rw [named] at same
        have behind := List.getElem?_eq_none_iff.mp named
        have before := List.getElem?_eq_none_iff.mp same.symm
        rw [← empty.answers_length names] at behind before
        rw [List.getElem?_eq_none behind, List.getElem?_eq_none before]
    | some name =>
        rw [empty.answers_at names later name named,
          empty.answers_at names earlier name (same.symm.trans named)]
  case kept => exact empty.answers_at names
  case inverse => exact inverse
  case beyond => exact fun id above => List.getElem?_eq_none above
  case absent =>
    intro name new
    have unknown := mt (mem_registered names name).mp new
    rw [idOf?, List.idxOf?_eq_none_iff.mpr unknown, Option.map_none]
  case listed =>
    intro id name
    rw [mem_all _ fits, inverse]
  case ordered => exact all_ordered _ fits

/-- Names and numbers stand for each other at every moment of every run that registers no
more than 2^32 names: the numbers are given out in the order of first registration, and
each stays with its name. -/
theorem numbers_stable (names : List String) (few : names.eraseDups.length ≤ UInt32.size)
    (moment : Nat) :
    (empty.registerAll (names.take moment)).Numbers (names.take moment)
      ((empty.answers names).take moment) := by
  have grown := (empty.registerAll (names.take moment)).registerAll_grown (names.drop moment)
  have whole := names_registered names
  rw [← registerAll_append, List.take_append_drop, whole] at grown
  rw [answers_take]
  exact registered_numbers _ (Nat.le_trans grown.length_le few)

/-- An empty name is a name, and one that comes again gets its old number. -/
theorem numbers_stable_repeated :
    let names := ["B", "A", "B", "", "A"]
    let answers := empty.answers names
    names.eraseDups.length ≤ UInt32.size ∧
      (empty.registerAll (names.take 4)).Numbers (names.take 4) (answers.take 4) ∧
      answers = [⟨0⟩, ⟨1⟩, ⟨0⟩, ⟨2⟩, ⟨1⟩] := by
  intro names answers
  have few : names.eraseDups.length ≤ UInt32.size := by decide
  exact ⟨few, numbers_stable names few 4, by decide⟩

end SymbolTable.ClassRegistry
