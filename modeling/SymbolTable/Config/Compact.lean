import SymbolTable.Config.Options

/-!
Configurations written down in the shortest way: fields in their fixed order,
nothing between the tokens, and in strings only what has to be escaped.
-/
namespace SymbolTable

namespace Compact

/-- A character inside a string. Quote, backslash and the control characters
below U+0020 are escaped, by a letter where there is one. -/
def escaped (c : Char) : List Char :=
  if c = '"' then ['\\', '"']
  else if c = '\\' then ['\\', '\\']
  else if c = '\x08' then ['\\', 'b']
  else if c = '\t' then ['\\', 't']
  else if c = '\n' then ['\\', 'n']
  else if c = '\x0c' then ['\\', 'f']
  else if c = '\r' then ['\\', 'r']
  else if c.toNat < 0x20 then
    ['\\', 'u', '0', '0', Nat.digitChar (c.toNat / 16), Nat.digitChar (c.toNat % 16)]
  else [c]

def quoted (text : String) : List Char :=
  '"' :: (text.toList.flatMap escaped ++ ['"'])

def truth : Bool → List Char
  | true => ['t', 'r', 'u', 'e']
  | false => ['f', 'a', 'l', 's', 'e']

def word (value : UInt64) : List Char :=
  Nat.toDigits 10 value.toNat

def member (key : String) (value : List Char) : List Char :=
  quoted key ++ ':' :: value

def options (render : RenderOptions) : List Char :=
  '{' :: (member "classMembers" (truth render.classMembers) ++
    ',' :: (member "memberTerminator" (quoted render.memberTerminator) ++
    ',' :: (member "indentWidth" (word render.indentWidth) ++
    ',' :: (member "showSuperclass" (truth render.showSuperclass) ++ ['}']))))

def config (config : Config) : List Char :=
  let render := match config.render? with
    | none => ['n', 'u', 'l', 'l']
    | some render => options render
  '{' :: (member "render" render ++ ['}'])

end Compact

def Config.compact (config : Config) : String :=
  String.ofList (Compact.config config)

end SymbolTable
