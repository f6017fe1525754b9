import SymbolTable.Session.Command
import SymbolTable.Class.Inheritance
import SymbolTable.Class.Layout

/-!
Running commands. A command first builds what it brings along, then finds the
place it is about, then does its work; the first of these that fails is the
answer.
-/
namespace SymbolTable

def OptionsSource.read : OptionsSource → Except ReadError RenderOptions
  | .given options => .ok options.complete
  | .members => .ok .withMembers
  | .config text => (Config.read text).map Config.options

namespace Step

def bind (place : Place) (name : String) (entry : Entry) : Step (Option Refusal) :=
  edit place fun scope =>
    match scope.bind name entry with
    | .ok bound => (none, bound.table)
    | .error refusal => (some refusal, scope.table)

def setDiagnostics (diagnostics : Diagnostics) : Step Unit :=
  modify fun session => { session with diagnostics }

def declare (place : Place) (entry : Entry) (span : Span) : Step Reply := do
  let before := (← get).diagnostics
  let (made, diagnostics) ← edit place fun scope =>
    let (made, scope, diagnostics) := scope.declare entry span before
    ((made, diagnostics), scope.table)
  setDiagnostics diagnostics
  return .truth made

def methodIn (slot : String) : Step Method := do
  match (← ofExcept ((← get).slots.tree slot)).member?.bind Entry.method? with
  | none => throw .notAMethod
  | some method => return method

def fillMethod (slot : String) (method : Method) : Step Unit :=
  fillSlot slot (.ofEntry method.entry)

def addParameter (slot : String) (parameter : Variable) : Step (Option Refusal) := do
  match (← methodIn slot).addParameter parameter with
  | .error refusal => return some refusal
  | .ok method =>
      fillMethod slot method
      return none

def declareParameter (slot : String) (parameter : Variable) (span : Span) : Step Reply := do
  let method ← methodIn slot
  let before := (← get).diagnostics
  let (made, method, diagnostics) := method.declareParameter parameter span before
  fillMethod slot method
  setDiagnostics diagnostics
  return .truth made

def extend (slot : String) (super : ClassId) : Step Reply := do
  let self ← classAt ⟨slot, []⟩
  fillSlot slot (.ofEntry (self.extend super).entry)
  return .classId super

/-- A step of the cursor at a place. How a misuse is answered is the caller's. -/
def next (place : Place) (misuse : IterationError → Problem) : Step Reply := do
  let scope ← scopeAt place
  match scope.next with
  | .error error => throw (misuse error)
  | .ok (entry, table) =>
      store place table
      return .described (some entry.description)

def render (place : Place) : Step Reply := do
  let tree ← treeAt place
  let (text, rendered) ← unlessFault tree.render
  if rendered.scope?.isSome then
    store place rendered.table
  return .text text

/-- The class at a place under options; with `named`, superclasses are named by
the session's registry. -/
def layout (place : Place) (source : OptionsSource) (named : Bool) : Step Reply := do
  let options ← ofExcept (source.read.mapError .config)
  let self ← classAt place
  let session ← get
  let classes? := if named then some session.registry else none
  let (text, self) ← unlessFault (self.layout options classes?)
  store place self.table
  return .text text

def check (place : Place) (span : Span) : Step Reply := do
  let scope ← scopeAt place
  let session ← get
  let (sound, diagnostics) := session.registry.checkInheritance scope span session.diagnostics
  setDiagnostics diagnostics
  return .checked sound (diagnostics.all.drop session.diagnostics.size)

def perform : Command → Step Reply
  | .new slot blueprint => do
      let tree ← build blueprint
      fillSlot slot tree
      return .described (some tree.description)
  | .bind place name blueprint span? => do
      let entry ← buildEntry blueprint
      return .bound (← bind place name entry) span?
  | .add place name blueprint => do
      let entry ← buildEntry blueprint
      return .truth (← bind place name entry).isNone
  | .declare place blueprint span => do
      let entry ← buildEntry blueprint
      declare place entry span
  | .parameter slot name ty manner => do
      let parameter ← unlessFault (Variable.new name ty)
      match manner with
      | .answered span? => return .bound (← addParameter slot parameter) span?
      | .silent => return .truth (← addParameter slot parameter).isNone
      | .declared span => declareParameter slot parameter span
  | .extendByName slot super => do
      -- The number stays given out, whatever the slot holds.
      let id ← register super
      extend slot id
  | .extendById slot super => extend slot super
  | .lookup place name => do
      return .described (((← scopeAt place).lookup? name).map Entry.description)
  | .contains place name => do return .truth ((← scopeAt place).table.contains name)
  | .sizes place => do
      let scope ← scopeAt place
      return .sized scope.table.size scope.table.isEmpty
  | .list place => do
      return .listed ((← scopeAt place).table.bindings.map fun (name, entry) =>
        (name, entry.description))
  | .reachScope place => do
      return .reached (← edit place fun scope => (scope, scope.table))
  | .inspect place => do
      let tree ← treeAt place
      return .inspected tree.description tree.detail
  | .reset place => do
      store place (← scopeAt place).table.reset
      return .done
  | .hasNext place => do return .truth (← scopeAt place).table.hasNext
  | .next place => next place fun error => .fault (.iteration error)
  | .tryNext place => next place .iteration
  | .render place => render place
  | .renderBindings place => do
      let (text, table) ← unlessFault (← scopeAt place).renderBindings
      store place table
      return .text text
  | .layout place source named => layout place source named
  | .register name => do return .number (some (← register name))
  | .idOf name => do return .number ((← get).registry.idOf? name)
  | .nameOf id => do return .name ((← get).registry.nameOf? id)
  | .registered => do return .registered (← get).registry
  | .resolve place id => do
      let scope ← scopeAt place
      return .described (((← get).registry.resolve id scope).map (·.entry.description))
  | .chain start place => do
      let self ← classAt start
      let scope ← scopeAt place
      return .texts ((← get).registry.superclassChain self scope)
  | .check place span => check place span
  | .report diagnostic => do
      let diagnostics := (← get).diagnostics.add diagnostic
      setDiagnostics diagnostics
      return .count diagnostics.size
  | .sort => do
      setDiagnostics (← get).diagnostics.sort
      return .done
  | .diagnostics => do return .diagnostics (← get).diagnostics

end Step

namespace Session

def answer (session : Session) (command : Command) : Except Problem Reply × Session :=
  (Step.perform command).run.run session

def answers (session : Session) : List Command → List (Except Problem Reply)
  | [] => []
  | command :: rest =>
      let (reply, session) := session.answer command
      reply :: session.answers rest

end Session
end SymbolTable
