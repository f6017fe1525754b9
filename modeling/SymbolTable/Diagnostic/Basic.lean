import SymbolTable.Span
import SymbolTable.Diagnostic.Message

/-!
Diagnostics, and the collection an analysis gathers them in. The collection
keeps the order of addition until it is sorted; sorting goes by position, puts
unlocated diagnostics first and is stable.
-/
namespace SymbolTable

structure Diagnostic where
  span? : Option Span
  message : Heading
  text : String
  deriving DecidableEq, Repr

namespace Diagnostic

def unlocated (message : Message) (args : List String) : Diagnostic :=
  ⟨none, message.toHeading, message.text args⟩

def located (span : Span) (message : Message) (args : List String) : Diagnostic :=
  ⟨some span, message.toHeading, message.text args⟩

def severity (diagnostic : Diagnostic) : Severity :=
  diagnostic.message.severity

def isError (diagnostic : Diagnostic) : Bool :=
  diagnostic.severity == .error

def line (diagnostic : Diagnostic) : String :=
  let place := match diagnostic.span? with
    | some span => s!"({span.start}): "
    | none => ""
  s!"{place}{diagnostic.severity.text} MJ{diagnostic.message.code}: {diagnostic.text}"

def atOrBefore (first second : Diagnostic) : Bool :=
  match first.span?, second.span? with
  | none, _ => true
  | some _, none => false
  | some a, some b => a.start ≤ b.start

theorem atOrBefore_trans (a b c : Diagnostic) (first : a.atOrBefore b) (second : b.atOrBefore c) :
    a.atOrBefore c := by
  unfold atOrBefore at *
  cases x : a.span? <;> cases y : b.span? <;> cases z : c.span? <;>
    simp only [x, y, z, decide_eq_true_eq, Bool.false_eq_true] at *
  exact UInt32.le_trans first second

theorem atOrBefore_total (a b : Diagnostic) : a.atOrBefore b || b.atOrBefore a := by
  unfold atOrBefore
  cases a.span? <;> cases b.span? <;> simp
  exact UInt32.le_total _ _

end Diagnostic

structure Diagnostics where
  all : List Diagnostic
  deriving DecidableEq, Repr

namespace Diagnostics

def empty : Diagnostics := ⟨[]⟩

def add (diagnostics : Diagnostics) (diagnostic : Diagnostic) : Diagnostics :=
  ⟨diagnostics.all ++ [diagnostic]⟩

def size (diagnostics : Diagnostics) : Nat :=
  diagnostics.all.length

def isEmpty (diagnostics : Diagnostics) : Bool :=
  diagnostics.all.isEmpty

def hasErrors (diagnostics : Diagnostics) : Bool :=
  diagnostics.all.any Diagnostic.isError

def errorCount (diagnostics : Diagnostics) : Nat :=
  diagnostics.all.countP Diagnostic.isError

def sort (diagnostics : Diagnostics) : Diagnostics :=
  ⟨diagnostics.all.mergeSort Diagnostic.atOrBefore⟩

end Diagnostics
end SymbolTable
