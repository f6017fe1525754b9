import SymbolTable.Fault

/-!
Where a declaration stands in its source text, in bytes. Positions are words
of 32 bits, so a span may name an end that no position reaches.
-/
namespace SymbolTable

structure Span where
  start : UInt32
  length : UInt32
  deriving DecidableEq, Repr

namespace Span

def origin : Span := ⟨0, 0⟩

def stop (span : Span) : Except Fault UInt32 :=
  if span.start.toNat + span.length.toNat < UInt32.size then
    .ok (span.start + span.length)
  else
    .error .positionTooLarge

def text (span : Span) : Except Fault String :=
  span.stop.map fun stop => s!"[{span.start}..{stop})"

theorem stop_ok (span : Span) (stop : UInt32) (reached : span.stop = .ok stop) :
    stop.toNat = span.start.toNat + span.length.toNat := by
  unfold Span.stop at reached
  split at reached
  · rename_i fits
    cases reached
    rw [UInt32.toNat_add]
    exact Nat.mod_eq_of_lt fits
  · cases reached

end Span
end SymbolTable
