import SymbolTable.Config.Options
import SymbolTable.Config.Reader.Record

/-!
Configurations read from text. A configuration is a record of one field, the
layout, which may be given as none; the layout is a record of four. A text
holds one configuration and nothing behind it.
-/
namespace SymbolTable

def GivenOptions.shape : Record GivenOptions where
  mayEndEarly := true
  fields := [
    .plain "classMembers" (·.classMembers?)
      (fun given value => { given with classMembers? := some value })
      Read.truth Read.truth_consumes,
    .plain "memberTerminator" (·.memberTerminator?)
      (fun given value => { given with memberTerminator? := some value })
      Read.string Read.string_consumes,
    .plain "indentWidth" (·.indentWidth?)
      (fun given value => { given with indentWidth? := some value })
      Read.word64 Read.word64_consumes,
    .plain "showSuperclass" (·.showSuperclass?)
      (fun given value => { given with showSuperclass? := some value })
      Read.truth Read.truth_consumes]

/-- What a configuration says about the layout, if it says anything: the
options it gives, or that there are none. -/
abbrev GivenConfig := Option (Option GivenOptions)

def GivenConfig.shape : Record GivenConfig where
  mayEndEarly := false
  fields := [
    .plain "render" id (fun _ value => some value)
      (Read.orNull (Read.record GivenOptions.shape {}))
      (Read.orNull_consumes (Read.record_consumes _ _))]

def GivenConfig.complete (given : GivenConfig) : Config :=
  ⟨given.join.map GivenOptions.complete⟩

def Config.readChars (text : List Char) : Except ReadError Config :=
  match Read.record GivenConfig.shape none text with
  | .error error => .error error
  | .ok (given, rest) =>
      match Read.blanks rest with
      | [] => .ok given.complete
      | _ => .error .malformed

def Config.read (text : String) : Except ReadError Config :=
  Config.readChars text.toList

inductive FileError where
  /-- There is no file, or what it holds is no text. -/
  | unreadable (missing : Bool)
  | invalid (error : ReadError)
  deriving DecidableEq, Repr

/-- Without the details that follow the colon. -/
def FileError.message : FileError → String
  | .unreadable _ => "failed to read config file"
  | .invalid _ => "invalid config"

def Config.readBytes : Option ByteArray → Except FileError Config
  | none => .error (.unreadable true)
  | some bytes =>
      match String.fromUTF8? bytes with
      | none => .error (.unreadable false)
      | some text =>
          match Config.read text with
          | .error error => .error (.invalid error)
          | .ok config => .ok config

end SymbolTable
