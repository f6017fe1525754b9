import SymbolTable.Config.Options
import SymbolTable.Entry.Render

/-!
Classes laid out under options: a header line, the members one level further
in, a closing line. Members of a class that are no classes are rendered through
their cursors, so the class as the layout leaves it comes with the text.
-/
namespace SymbolTable

/-- The length in bytes that no text exceeds: the largest signed word. -/
def longestText : Nat := 0x7fffffffffffffff

/-- The blanks in front of a line. Their number is a word of 64 bits. -/
def RenderOptions.indent (options : RenderOptions) (depth : Nat) : Except Fault String :=
  let width := options.indentWidth.toNat * depth
  if UInt64.size ≤ width then
    .error .indentProductTooLarge
  else if longestText < width then
    .error .indentTooLong
  else
    .ok (String.ofList (List.replicate width ' '))

def RenderOptions.extendsClause (options : RenderOptions) (classes? : Option ClassRegistry)
    (super? : Option ClassId) : String :=
  if options.showSuperclass then
    match classes?, super? with
    | some registry, some super =>
        match registry.nameOf? super with
        | some name => " extends " ++ name
        | none => ""
    | _, _ => ""
  else
    ""

section

variable (options : RenderOptions) (classes? : Option ClassRegistry)

mutual

def layoutTable (depth : Nat) (name : String) (super? : Option ClassId) :
    Table Entry → Except Fault (String × Table Entry)
  | ⟨bindings, cursor⟩ => do
      let indent ← options.indent depth
      let head := indent ++ "class " ++ name ++ options.extendsClause classes? super? ++ " \x7b\n"
      let foot := indent ++ "\x7d\n"
      if options.classMembers then
        -- Due even where no member will use it.
        let inner ← options.indent (depth + 1)
        let (body, bindings) ← layoutMembers (depth + 1) inner bindings
        return (head ++ body ++ foot, ⟨bindings, cursor⟩)
      else
        return (head ++ foot, ⟨bindings, cursor⟩)

def layoutMember (depth : Nat) (indent : String) : Entry → Except Fault (String × Entry)
  | .scope (.class name super?) table => do
      let (text, table) ← layoutTable depth name super? table
      return (text, .scope (.class name super?) table)
  | entry => do
      let (text, entry) ← entry.render
      return (indent ++ text ++ options.memberTerminator ++ "\n", entry)

def layoutMembers (depth : Nat) (indent : String) :
    List (String × Entry) → Except Fault (String × List (String × Entry))
  | [] => return ("", [])
  | (name, entry) :: rest => do
      let (text, entry) ← layoutMember depth indent entry
      let (texts, rest) ← layoutMembers depth indent rest
      return (text ++ texts, (name, entry) :: rest)

end

def Class.layout (self : Class) : Except Fault (String × Class) := do
  let (text, table) ← layoutTable options classes? 0 self.name self.super? self.table
  return (text, { self with table })

end
end SymbolTable
