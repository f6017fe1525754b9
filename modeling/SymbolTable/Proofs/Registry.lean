import Mathlib.Data.List.Dedup
import Mathlib.Data.List.Perm.Subperm
import SymbolTable.Class.Registry

/-!
Numbers for names. A registry lists each name once, in the order of first
registration, and the number it gives out for a name stands for that name as long
as its names can be told apart by words of 32 bits.
-/
namespace SymbolTable.ClassRegistry

theorem idOf_known (registry : ClassRegistry) (name : String) (known : name ∈ registry.names) :
    ∃ id, registry.idOf? name = some id := by
  obtain ⟨position, found⟩ := Option.isSome_iff_exists.mp (List.isSome_idxOf?.mpr known)
  exact ⟨numbered position, by rw [idOf?, found, Option.map_some]⟩

theorem register_known (registry : ClassRegistry) (name : String) (known : name ∈ registry.names) :
    (registry.register name).2 = registry := by
  obtain ⟨id, found⟩ := registry.idOf_known name known
  rw [register, found]

theorem register_new (registry : ClassRegistry) (name : String) (fresh : name ∉ registry.names) :
    registry.register name = (numbered registry.size, ⟨registry.names ++ [name]⟩) := by
  simp [register, idOf?, List.idxOf?_eq_none_iff.mpr fresh]

theorem register_grown (registry : ClassRegistry) (name : String) :
    registry.names <+: (registry.register name).2.names := by
  unfold register
  split
  · exact List.prefix_refl _
  · exact List.prefix_append _ _

theorem mem_register (registry : ClassRegistry) (name other : String) :
    other ∈ (registry.register name).2.names ↔ other ∈ registry.names ∨ other = name := by
  by_cases known : name ∈ registry.names
  · rw [registry.register_known name known]
    constructor
    · exact .inl
    · rintro (old | same)
      · exact old
      · exact same ▸ known
  · rw [registry.register_new name known]
    simp

theorem nodup_register (registry : ClassRegistry) (name : String)
    (distinct : registry.names.Nodup) : (registry.register name).2.names.Nodup := by
  by_cases known : name ∈ registry.names
  · rwa [registry.register_known name known]
  · rw [registry.register_new name known]
    refine List.nodup_append.mpr ⟨distinct, by simp, ?_⟩
    intro old member new added same
    rw [List.mem_singleton] at added
    exact known (added ▸ same ▸ member)

theorem idOf_some (registry : ClassRegistry) (name : String) (id : ClassId) :
    registry.idOf? name = some id ↔
      ∃ position, registry.names.idxOf? name = some position ∧ numbered position = id := by
  rw [idOf?, Option.map_eq_some_iff]

theorem idOf_register (registry : ClassRegistry) (name : String) :
    (registry.register name).2.idOf? name = some (registry.register name).1 := by
  by_cases known : name ∈ registry.names
  · obtain ⟨id, found⟩ := registry.idOf_known name known
    rw [registry.register_known name known, register, found]
  · rw [registry.register_new name known, idOf_some]
    refine ⟨registry.size, List.idxOf?_eq_some_iff.mpr ⟨by simp [size], by simp [size], ?_⟩, rfl⟩
    intro before inside
    rw [List.getElem_append_left inside]
    exact fun same => known (same ▸ List.getElem_mem inside)

/-- Registering more names does not change the number of a name. -/
theorem idOf_grown {before after : ClassRegistry} (grown : before.names <+: after.names)
    {name : String} {id : ClassId} (found : before.idOf? name = some id) :
    after.idOf? name = some id := by
  obtain ⟨position, first, numbers⟩ := (before.idOf_some name id).mp found
  obtain ⟨inside, there, absent⟩ := List.idxOf?_eq_some_iff.mp first
  refine (after.idOf_some name id).mpr ⟨position, ?_, numbers⟩
  obtain ⟨more, split⟩ := grown
  rw [← split]
  refine List.idxOf?_eq_some_iff.mpr ⟨by simp; omega, ?_, ?_⟩
  · rw [List.getElem_append_left inside, there]
  · intro earlier nearer
    rw [List.getElem_append_left (Nat.lt_trans nearer inside)]
    exact absent earlier nearer

/-- The number of a name stands for it. -/
theorem nameOf_idOf (registry : ClassRegistry) (fits : registry.size ≤ UInt32.size) (name : String)
    (id : ClassId) (found : registry.idOf? name = some id) : registry.nameOf? id = some name := by
  obtain ⟨position, first, numbers⟩ := (registry.idOf_some name id).mp found
  obtain ⟨inside, there, _⟩ := List.idxOf?_eq_some_iff.mp first
  subst numbers
  rw [nameOf?, numbered, UInt32.toNat_ofNat_of_lt' (Nat.lt_of_lt_of_le inside fits),
    List.getElem?_eq_getElem inside, there]

def registerAll (registry : ClassRegistry) (names : List String) : ClassRegistry :=
  names.foldl (fun registry name => (registry.register name).2) registry

theorem mem_registerAll (registry : ClassRegistry) (names : List String) (name : String) :
    name ∈ (registry.registerAll names).names ↔ name ∈ registry.names ∨ name ∈ names := by
  induction names generalizing registry with
  | nil => simp [registerAll]
  | cons first rest ih =>
      change name ∈ ((registry.register first).2.registerAll rest).names ↔ _
      rw [ih, mem_register, List.mem_cons, or_assoc]

theorem nodup_registerAll (registry : ClassRegistry) (names : List String)
    (distinct : registry.names.Nodup) : (registry.registerAll names).names.Nodup := by
  induction names generalizing registry with
  | nil => exact distinct
  | cons first rest ih => exact ih _ (registry.nodup_register first distinct)

/-- A fresh registry gives out no more numbers than there are names. -/
theorem size_registerAll (names : List String) :
    (empty.registerAll names).size ≤ names.dedup.length := by
  have distinct : (empty.registerAll names).names.Nodup :=
    empty.nodup_registerAll names List.nodup_nil
  refine (distinct.subperm ?_).length_le
  intro name member
  rw [mem_registerAll] at member
  rcases member with before | new
  · cases before
  · exact List.mem_dedup.mpr new

end SymbolTable.ClassRegistry
