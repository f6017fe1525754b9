import SymbolTable.Config.Reader
import SymbolTable.Proofs.Config.Members

/-!
Configurations come back from their compact text. Each value is taken whole by its
reader, and nothing of what stands behind it; a member is read by the one field of
its key; and so the members of a record come back one after another.
-/
namespace SymbolTable

/-- The reader takes what is written, and leaves what stands behind it in an object. -/
def Reader.Restores {Value : Type} (reader : Reader Value) (written : List Char)
    (value : Value) : Prop :=
  ∀ rest, Closes rest → reader (written ++ rest) = .ok (value, rest)

theorem Reader.Reads.restores {Value : Type} {reader : Reader Value} {written : List Char}
    {value : Value} (reads : reader.Reads written value) : reader.Restores written value :=
  fun rest closes => reads [] rest .nil closes.ends

namespace Read

theorem truth_restores (value : Bool) : truth.Restores (Compact.truth value) value :=
  (truth_reads value).restores

theorem string_restores (text : String) : string.Restores (Compact.quoted text) text :=
  (string_reads text _ (compact_spelling text)).restores

theorem word64_restores (value : UInt64) : word64.Restores (Compact.word value) value :=
  (word64_reads value).restores

section Record

variable {State : Type} (fields : List (Field State))

def separator : Bool → List Char
  | true => []
  | false => [',']

def row : Bool → List (String × List Char) → List Char
  | _, [] => []
  | first, (key, value) :: more => separator first ++ Compact.member key value ++ row false more

/-- What members in a row make of a state: each is read by the field of its key,
which is not set yet. -/
inductive Taken : State → List (String × List Char) → State → Prop where
  | none (state) : Taken state [] state
  | member {state after last key value more} (field : Field State) :
      fields.find? (fun other => other.key == key) = some field → field.isSet state = false →
      (field.read state).Restores value after → Taken after more last →
      Taken state ((key, value) :: more) last

/-- A key leads to its field. -/
theorem member_read (field : Field State) (state : State) (key : String) (text : List Char)
    (listed : fields.find? (fun other => other.key == key) = some field)
    (unset : field.isSet state = false) :
    member fields state (key.toList.flatMap Compact.escaped ++ '"' :: ':' :: text) =
      field.read state text :=
  member_known fields field state key _ [] text (escaped_spelled key.toList) listed unset .nil

/-- The step lemma: a member is read by its field, and the others go on from there. -/
theorem members_member (first : Bool) (field : Field State) (state after : State) (key : String)
    (value rest : List Char) (listed : fields.find? (fun other => other.key == key) = some field)
    (unset : field.isSet state = false) (restores : (field.read state).Restores value after)
    (closes : Closes rest) :
    members fields first state (separator first ++ Compact.member key value ++ rest) =
      members fields false after rest := by
  have next : nextKey first (separator first ++ Compact.member key value ++ rest) =
      .ok (.another (key.toList.flatMap Compact.escaped ++ '"' :: ':' :: (value ++ rest))) := by
    cases first <;> simp [separator, Compact.member, Compact.quoted, nextKey, blanks, isBlank]
  have taken := (member_read fields field state key (value ++ rest) listed unset).trans
    (restores rest closes)
  exact members_another fields first state after _ _ rest next taken

theorem members_end (first : Bool) (state : State) (rest : List Char) :
    members fields first state ('\x7d' :: rest) = .ok (state, rest) :=
  members_closed fields first state [] rest .nil

theorem closes_row (more : List (String × List Char)) (rest : List Char) :
    Closes (row false more ++ '\x7d' :: rest) := by
  cases more with
  | nil => exact .inr rfl
  | cons member more => exact .inl rfl

/-- The run lemma: an object comes back member by member. -/
theorem members_taken (first : Bool) (state last : State) (written : List (String × List Char))
    (rest : List Char) (taken : Taken fields state written last) :
    members fields first state (row first written ++ '\x7d' :: rest) = .ok (last, rest) := by
  induction taken generalizing first with
  | none state => exact members_end fields first state rest
  | @member state after last key value more field listed unset restores _ ih =>
      rw [row, List.append_assoc, members_member fields first field state after key value _ listed
        unset restores (closes_row more rest)]
      exact ih false

theorem record_taken (shape : Record State) (state last : State)
    (written : List (String × List Char)) (rest : List Char)
    (taken : Taken shape.fields state written last) :
    record shape state ('\x7b' :: (row true written ++ '\x7d' :: rest)) = .ok (last, rest) :=
  members_taken shape.fields true state last written rest taken

end Record

/-- A field on its own takes its value into the state. -/
theorem plain_restores {State Value : Type} (key : String) (get : State → Option Value)
    (put : State → Value → State) (reader : Reader Value) (consumes : reader.Consumes)
    (state : State) (value : Value) (written : List Char)
    (restores : reader.Restores written value) :
    ((Field.plain key get put reader consumes).read state).Restores written (put state value) := by
  intro rest closes
  simp only [Field.plain, restores rest closes]
  rfl

end Read

def RenderOptions.given (options : RenderOptions) : GivenOptions where
  classMembers? := some options.classMembers
  memberTerminator? := some options.memberTerminator
  indentWidth? := some options.indentWidth
  showSuperclass? := some options.showSuperclass

open Read

def optionsRow (options : RenderOptions) : List (String × List Char) :=
  [("classMembers", Compact.truth options.classMembers),
    ("memberTerminator", Compact.quoted options.memberTerminator),
    ("indentWidth", Compact.word options.indentWidth),
    ("showSuperclass", Compact.truth options.showSuperclass)]

theorem options_row (options : RenderOptions) :
    Compact.options options = '\x7b' :: (row true (optionsRow options) ++ ['\x7d']) := by
  simp [Compact.options, optionsRow, row, separator]

theorem options_taken (options : RenderOptions) :
    Taken GivenOptions.shape.fields {} (optionsRow options) options.given :=
  .member _ rfl rfl (plain_restores _ _ _ _ _ _ _ _ (truth_restores _)) <|
  .member _ rfl rfl (plain_restores _ _ _ _ _ _ _ _ (string_restores _)) <|
  .member _ rfl rfl (plain_restores _ _ _ _ _ _ _ _ (word64_restores _)) <|
  .member _ rfl rfl (plain_restores _ _ _ _ _ _ _ _ (truth_restores _)) <|
  .none _

/-- The members of the options come back. -/
theorem options_restores (options : RenderOptions) :
    (record GivenOptions.shape {}).Restores (Compact.options options) options.given := by
  intro rest _
  have object := record_taken GivenOptions.shape _ _ _ rest (options_taken options)
  rw [options_row, List.cons_append, List.append_assoc]
  exact object

theorem null_restores {Value : Type} (reader : Reader Value) :
    (orNull reader).Restores ['n', 'u', 'l', 'l'] none := by
  intro rest _
  rfl

/-- No record is mistaken for none. -/
theorem object_restores {Value : Type} (reader : Reader Value) (written : List Char)
    (value : Value) (restores : reader.Restores ('\x7b' :: written) value) :
    (orNull reader).Restores ('\x7b' :: written) (some value) := by
  intro rest closes
  have taken := restores rest closes
  rw [List.cons_append] at taken ⊢
  simp [orNull, blanks, isBlank, taken, Except.map]

def renderText : Option RenderOptions → List Char
  | none => ['n', 'u', 'l', 'l']
  | some render => Compact.options render

theorem render_restores (render? : Option RenderOptions) :
    (orNull (record GivenOptions.shape {})).Restores (renderText render?)
      (render?.map RenderOptions.given) := by
  cases render? with
  | none => exact null_restores _
  | some render => exact object_restores _ _ _ (options_restores render)

theorem Config.compact_row (config : Config) :
    Compact.config config =
      '\x7b' :: (row true [("render", renderText config.render?)] ++ ['\x7d']) := by
  simp only [Compact.config, row, separator, List.nil_append, List.append_nil]
  cases config.render? <;> rfl

theorem Config.taken (config : Config) :
    Taken GivenConfig.shape.fields none [("render", renderText config.render?)]
      (some (config.render?.map RenderOptions.given)) :=
  .member _ rfl rfl (plain_restores _ _ _ _ _ _ _ _ (render_restores config.render?)) (.none _)

theorem Config.given_complete (config : Config) :
    GivenConfig.complete (some (config.render?.map RenderOptions.given)) = config := by
  cases config with
  | mk render? => cases render? <;> rfl

theorem Config.read_compact (config : Config) : Config.read config.compact = .ok config := by
  have whole := record_taken GivenConfig.shape _ _ _ [] config.taken
  rw [← config.compact_row] at whole
  rw [Config.read, Config.compact, String.toList_ofList, Config.readChars, whole]
  exact congrArg Except.ok config.given_complete

theorem fromUTF8_toUTF8 (text : String) : String.fromUTF8? text.toUTF8 = some text :=
  dif_pos text.isValidUTF8

/-- A configuration comes back from its compact text, and from the bytes of a file
that holds it. -/
theorem config_restored (config : Config) :
    Config.read config.compact = .ok config ∧
      Config.readBytes (some config.compact.toUTF8) = .ok config := by
  refine ⟨config.read_compact, ?_⟩
  simp only [Config.readBytes, fromUTF8_toUTF8, config.read_compact]

/-- Only what has to be escaped is, and by a code unit only where there is no letter. -/
example : (Config.mk (some { memberTerminator := "\"\n\x00", indentWidth := 0 })).compact =
    "\x7b\"render\":\x7b\"classMembers\":false,\"memberTerminator\":\"\\\"\\n\\u0000\"," ++
      "\"indentWidth\":0,\"showSuperclass\":false\x7d\x7d" := by
  decide

end SymbolTable
