/-!
Types as a declaration writes them: six keywords, class names, and any number
of array layers around one of these.
-/
namespace SymbolTable

inductive Ty where
  | int
  | float
  | boolean
  | char
  | string
  | void
  /-- A declared class, by its name. -/
  | named (name : String)
  | array (element : Ty)
  deriving DecidableEq, Repr

namespace Ty

def ofKeyword? : String → Option Ty
  | "int" => some .int
  | "float" => some .float
  | "boolean" => some .boolean
  | "char" => some .char
  | "String" => some .string
  | "void" => some .void
  | _ => none

def ofWord (word : String) : Ty :=
  (ofKeyword? word).getD (.named word)

def layered (ty : Ty) : Nat → Ty
  | 0 => ty
  | layers + 1 => .array (ty.layered layers)

def text : Ty → String
  | .int => "int"
  | .float => "float"
  | .boolean => "boolean"
  | .char => "char"
  | .string => "String"
  | .void => "void"
  | .named name => name
  | .array element => element.text ++ "[]"

def isPrimitive : Ty → Bool
  | .int | .float | .boolean | .char => true
  | _ => false

def isReference : Ty → Bool
  | .string | .named _ | .array _ => true
  | _ => false

def isVoid : Ty → Bool
  | .void => true
  | _ => false

def isNamed : Ty → Bool
  | .named _ => true
  | _ => false

def element? : Ty → Option Ty
  | .array element => some element
  | _ => none

def layers : Ty → Nat
  | .array element => element.layers + 1
  | _ => 0

def base : Ty → Ty
  | .array element => element.base
  | ty => ty

theorem layered_base (ty : Ty) : ty.base.layered ty.layers = ty := by
  induction ty with
  | array element ih => simp [base, layers, layered, ih]
  | _ => rfl

theorem text_ofKeyword? (word : String) (ty : Ty) (found : ofKeyword? word = some ty) :
    ty.text = word := by
  unfold ofKeyword? at found
  split at found <;> cases found <;> rfl

end Ty
end SymbolTable
