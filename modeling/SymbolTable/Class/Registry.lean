/-!
Class numbers. A class refers to its superclass by a number, never by holding
it; the registry says which name a number stands for. Numbers are given out in
the order of first registration.
-/
namespace SymbolTable

structure ClassId where
  number : UInt32
  deriving DecidableEq, Repr

def ClassId.text (id : ClassId) : String :=
  s!"ClassId({id.number})"

structure ClassRegistry where
  names : List String
  deriving DecidableEq, Repr

namespace ClassRegistry

def empty : ClassRegistry := ⟨[]⟩

def size (registry : ClassRegistry) : Nat :=
  registry.names.length

def isEmpty (registry : ClassRegistry) : Bool :=
  registry.names.isEmpty

/-- The number of a position; numbers are words of 32 bits. -/
def numbered (position : Nat) : ClassId :=
  ⟨UInt32.ofNat position⟩

def idOf? (registry : ClassRegistry) (name : String) : Option ClassId :=
  (registry.names.idxOf? name).map numbered

def nameOf? (registry : ClassRegistry) (id : ClassId) : Option String :=
  registry.names[id.number.toNat]?

def register (registry : ClassRegistry) (name : String) : ClassId × ClassRegistry :=
  match registry.idOf? name with
  | some id => (id, registry)
  | none => (numbered registry.size, ⟨registry.names ++ [name]⟩)

def all (registry : ClassRegistry) : List (ClassId × String) :=
  registry.names.zipIdx.map fun (name, position) => (numbered position, name)

end ClassRegistry
end SymbolTable
