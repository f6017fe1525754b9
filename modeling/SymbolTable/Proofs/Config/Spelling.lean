import Mathlib.Data.List.Nodup
import SymbolTable.Config.Reader
import SymbolTable.Proofs.Config.Members

/-!
Configurations in any spelling. A text may give any of the options, in any order, with
any blanks between the tokens, among any members under other keys, and both records may
be lists of values. What is read depends on the options that are given and on their values
alone; the others keep their defaults.
-/
namespace SymbolTable

open Json Read

inductive Setting where
  | classMembers (shown : Bool)
  | memberTerminator (text : String)
  | indentWidth (width : UInt64)
  | showSuperclass (shown : Bool)
  deriving DecidableEq

namespace Setting

def key : Setting → String
  | .classMembers _ => "classMembers"
  | .memberTerminator _ => "memberTerminator"
  | .indentWidth _ => "indentWidth"
  | .showSuperclass _ => "showSuperclass"

/-- A string may be spelled in any way; a width is a plain numeral. -/
def Written : Setting → List Char → Prop
  | .classMembers shown, text | .showSuperclass shown, text => text = (toString shown).toList
  | .memberTerminator meant, text => Spelling meant text
  | .indentWidth width, text => text = Nat.toDigits 10 width.toNat

end Setting

def optionKeys : List String :=
  ["classMembers", "memberTerminator", "indentWidth", "showSuperclass"]

def GivenOptions.settings (given : GivenOptions) : List Setting :=
  given.classMembers?.toList.map .classMembers ++
    (given.memberTerminator?.toList.map .memberTerminator ++
    (given.indentWidth?.toList.map .indentWidth ++
    given.showSuperclass?.toList.map .showSuperclass))

/-- The options in any order among other members, or the values of the first options. -/
inductive OptionsText (given : GivenOptions) : List Char → Prop where
  | object {settings members text} : settings.Perm given.settings →
      Giving optionKeys Setting.key Setting.Written settings members →
      Enclosed '{' '}' (members.map Member.text) text → OptionsText given text
  | array {values text} : given.settings.map Setting.key <+: optionKeys →
      List.Forall₂ Setting.Written given.settings values → Enclosed '[' ']' values text →
      OptionsText given text

/-- The layout among other members, or the layout alone. -/
inductive ConfigText (given : GivenOptions) : List Char → Prop where
  | object {before members text after} : Blanks before →
      Giving ["render"] (fun _ => "render") OptionsText [given] members →
      Enclosed '{' '}' (members.map Member.text) text → Blanks after →
      ConfigText given (before ++ (text ++ after))
  | array {before options text after} : Blanks before → OptionsText given options →
      Enclosed '[' ']' [options] text → Blanks after → ConfigText given (before ++ (text ++ after))

def GivenOptions.put (given : GivenOptions) : Setting → GivenOptions
  | .classMembers shown => { given with classMembers? := some shown }
  | .memberTerminator text => { given with memberTerminator? := some text }
  | .indentWidth width => { given with indentWidth? := some width }
  | .showSuperclass shown => { given with showSuperclass? := some shown }

namespace GivenOptions

theorem foldl_settings (given : GivenOptions) : given.settings.foldl put {} = given := by
  rcases given with ⟨_ | _, _ | _, _ | _, _ | _⟩ <;> rfl

theorem settings_distinct (given : GivenOptions) : (given.settings.map Setting.key).Nodup := by
  rcases given with ⟨_ | _, _ | _, _ | _, _ | _⟩ <;> simp [settings, Setting.key]

theorem put_comm (given : GivenOptions) (setting other : Setting)
    (apart : setting.key ≠ other.key) :
    (given.put setting).put other = (given.put other).put setting := by
  cases setting <;> cases other <;> first | rfl | exact absurd rfl apart

/-- The order in which the options are put together does not matter. -/
theorem foldl_perm (given : GivenOptions) (settings : List Setting)
    (order : settings.Perm given.settings) : settings.foldl put ({} : GivenOptions) = given := by
  have distinct := given.settings_distinct
  have apart : ∀ setting ∈ settings, ∀ other ∈ settings, ∀ state : GivenOptions,
      (state.put setting).put other = (state.put other).put setting := by
    intro setting inside other among state
    by_cases same : setting = other
    · rw [same]
    · apply put_comm
      intro keys
      exact same (List.inj_on_of_nodup_map distinct (order.subset inside) (order.subset among) keys)
  rw [order.foldl_eq' apart, foldl_settings]

end GivenOptions

theorem truth_text (shown : Bool) : (toString shown).toList = Compact.truth shown := by
  cases shown <;> rfl

theorem options_stores :
    Stores GivenOptions.shape.fields optionKeys Setting.key Setting.Written GivenOptions.put where
  listed := rfl
  known setting := by cases setting <;> simp [Setting.key, optionKeys]
  reads := by
    simp only [GivenOptions.shape, List.forall_mem_cons]
    refine ⟨?_, ?_, ?_, ?_, List.forall_mem_nil _⟩
    · intro setting same state text written
      cases setting with
      | classMembers shown =>
          rw [written, truth_text]
          exact plain_reads _ _ _ _ _ _ _ _ (truth_reads shown)
      | _ => simp [Field.plain, Setting.key] at same
    · intro setting same state text written
      cases setting with
      | memberTerminator meant =>
          exact plain_reads _ _ _ _ _ _ _ _ (string_reads meant text written)
      | _ => simp [Field.plain, Setting.key] at same
    · intro setting same state text written
      cases setting with
      | indentWidth width =>
          rw [written]
          exact plain_reads _ _ _ _ _ _ _ _ (word64_reads width)
      | _ => simp [Field.plain, Setting.key] at same
    · intro setting same state text written
      cases setting with
      | showSuperclass shown =>
          rw [written, truth_text]
          exact plain_reads _ _ _ _ _ _ _ _ (truth_reads shown)
      | _ => simp [Field.plain, Setting.key] at same
  keeps := by
    simp only [GivenOptions.shape, List.forall_mem_cons]
    refine ⟨?_, ?_, ?_, ?_, List.forall_mem_nil _⟩ <;>
    · intro setting apart state
      cases setting <;> first | rfl | exact absurd rfl apart

theorem starts_written (setting : Setting) (text : List Char) (written : setting.Written text) :
    Starts text := by
  have truth : ∀ shown : Bool, Starts (toString shown).toList := by
    intro shown
    rw [truth_text]
    cases shown <;> exact ⟨_, _, rfl, by decide⟩
  cases setting with
  | classMembers shown => exact written ▸ truth shown
  | memberTerminator meant =>
      obtain ⟨pieces, _, rfl⟩ := written
      exact ⟨'"', _, rfl, by decide⟩
  | indentWidth width =>
      obtain ⟨some, decimal⟩ := (toDigits_whole width.toNat).1
      rw [written]
      cases digits : Nat.toDigits 10 width.toNat with
      | nil => exact absurd digits some
      | cons c more => exact starts_digit c more (decimal c (digits ▸ List.mem_cons_self))
  | showSuperclass shown => exact written ▸ truth shown

theorem options_reads (given : GivenOptions) (text : List Char) (spelled : OptionsText given text) :
    (record GivenOptions.shape {}).Reads text given := by
  cases spelled with
  | @object settings members _ order giving enclosed =>
      have distinct : (settings.map Setting.key).Nodup :=
        (order.map Setting.key).nodup_iff.mpr given.settings_distinct
      have unset : ∀ field ∈ GivenOptions.shape.fields, field.isSet {} = false := by
        simp only [GivenOptions.shape, List.forall_mem_cons]
        exact ⟨rfl, rfl, rfl, rfl, List.forall_mem_nil _⟩
      have gathers := gathers_giving _ _ _ _ _ options_stores {} settings members giving distinct
        fun field inside _ => unset field inside
      rw [given.foldl_perm settings order] at gathers
      exact record_object _ _ _ _ text gathers enclosed
  | @array values _ front written enclosed =>
      have fills := fills_items _ _ _ _ true {} given.settings values written starts_written
        options_stores.reads front (.inl rfl)
      rw [given.foldl_settings] at fills
      exact record_array _ _ _ values text fills enclosed

/-- No options start like the word for none. -/
theorem options_opened (given : GivenOptions) (text : List Char)
    (spelled : OptionsText given text) :
    ∃ c more, text = c :: more ∧ (c = '[' ∨ c = '\x7b') := by
  cases spelled with
  | object _ _ enclosed =>
      obtain ⟨more, rfl⟩ := enclosed_head _ _ _ _ enclosed
      exact ⟨_, more, rfl, .inr rfl⟩
  | array _ _ enclosed =>
      obtain ⟨more, rfl⟩ := enclosed_head _ _ _ _ enclosed
      exact ⟨_, more, rfl, .inl rfl⟩

theorem starts_options (given : GivenOptions) (text : List Char)
    (spelled : OptionsText given text) : Starts text := by
  obtain ⟨c, more, rfl, opens⟩ := options_opened given text spelled
  refine ⟨c, more, rfl, ?_⟩
  rcases opens with rfl | rfl <;> decide

theorem config_stores :
    Stores GivenConfig.shape.fields ["render"] (fun _ : GivenOptions => "render") OptionsText
      (fun _ given => some (some given)) where
  listed := rfl
  known _ := List.mem_cons_self
  reads := by
    simp only [GivenConfig.shape, List.forall_mem_cons]
    refine ⟨?_, List.forall_mem_nil _⟩
    intro given _ state text spelled
    have reads := options_reads given text spelled
    obtain ⟨c, more, rfl, opens⟩ := options_opened given text spelled
    apply plain_reads
    rcases opens with rfl | rfl
    · exact orNull_reads _ _ _ _ rfl (by decide) reads
    · exact orNull_reads _ _ _ _ rfl (by decide) reads
  keeps := by
    simp only [GivenConfig.shape, List.forall_mem_cons]
    exact ⟨fun given apart => absurd rfl apart, List.forall_mem_nil _⟩

/-- A record between blanks is a whole text. -/
theorem readChars_record (given : GivenConfig) (before text after : List Char)
    (blank : Blanks before) (space : Blanks after)
    (reads : (record GivenConfig.shape none).Reads text given) :
    Config.readChars (before ++ (text ++ after)) = .ok given.complete := by
  have ends : Ends after := by
    cases after with
    | nil => trivial
    | cons c after => exact .inr (.inr (.inr (isBlank_blank c (space c List.mem_cons_self))))
  have bare : blanks after = [] := by
    have none := blanks_gap after [] space
    rwa [List.append_nil] at none
  simp only [Config.readChars, reads before after blank ends, bare]

/-- What is read from a text is the default options with those replaced that the text gives,
however the text is written. -/
theorem spelling_irrelevant (given : GivenOptions) (text : String)
    (spelled : ConfigText given text.toList) :
    Config.read text = .ok ⟨some {
      classMembers := given.classMembers?.getD false
      memberTerminator := given.memberTerminator?.getD ";"
      indentWidth := given.indentWidth?.getD 4
      showSuperclass := given.showSuperclass?.getD false }⟩ := by
  rw [Config.read]
  generalize text.toList = chars at spelled ⊢
  cases spelled with
  | @object before members text after blank giving enclosed space =>
      have unset : ∀ field ∈ GivenConfig.shape.fields, field.isSet none = false := by
        simp only [GivenConfig.shape, List.forall_mem_cons]
        exact ⟨rfl, List.forall_mem_nil _⟩
      have gathers := gathers_giving _ _ _ _ _ config_stores none [given] members giving
        (List.nodup_singleton _) fun field inside _ => unset field inside
      exact readChars_record (some (some given)) before text after blank space
        (record_object _ _ _ _ text gathers enclosed)
  | @array before options text after blank spelled enclosed space =>
      have fills := fills_items _ _ _ _ false none [given] [options] (.cons spelled .nil)
        starts_options config_stores.reads (List.prefix_refl _) (.inr rfl)
      exact readChars_record (some (some given)) before text after blank space
        (record_array _ _ _ _ text fills enclosed)

/-- Out of order, with an escape in a key, and with a key twice that is not known. -/
theorem spelling_irrelevant_mixed :
    let given : GivenOptions := { classMembers? := some true, indentWidth? := some 2 }
    let text := "[\x7b \"indentWidth\":2,\"x\":[null] ,\"x\":[null]," ++
      "\"\\u0063lassMembers\":true\x7d]\n"
    ConfigText given text.toList ∧
      Config.read text = .ok ⟨some { classMembers := true, indentWidth := 2 }⟩ := by
  intro given text
  have none : Blanks [] := .nil
  have space : Blanks [' '] := by simp [Blanks]
  have newline : Blanks ['\n'] := by simp [Blanks]
  have nested : Value "[null]".toList := by
    have array : Enclosed '[' ']' ["null".toList] _ := .entries none (.closed none)
    exact .array (fun item inside => .word (List.mem_singleton.mp inside ▸ by decide)) array
  have unit : CodeUnit (0 * 0x1000 + 0 * 0x100 + 6 * 0x10 + 3) ['0', '0', '6', '3'] :=
    .digits ⟨by decide, .inl rfl⟩ ⟨by decide, .inl rfl⟩ ⟨by decide, .inl rfl⟩
      ⟨by decide, .inl rfl⟩
  let width : Member := ⟨Compact.quoted "indentWidth", [], [], ['2']⟩
  let strange : Member := ⟨Compact.quoted "x", [], [], "[null]".toList⟩
  let pieces := ['\\', 'u', '0', '0', '6', '3'] :: "lassMembers".toList.map Compact.escaped
  let shown : Member := ⟨inQuotes pieces, [], [], "true".toList⟩
  have escaped : Spelling "classMembers" (inQuotes pieces) :=
    ⟨pieces, .cons (.unit unit) (escaped_spelled "lassMembers".toList), rfl⟩
  have giving : Giving optionKeys Setting.key Setting.Written
      [.indentWidth 2, .classMembers true] [width, strange, strange, shown] :=
    .given ⟨none, none⟩ (compact_spelling _) rfl <|
    .unknown (by decide) ⟨none, none⟩ (compact_spelling _) nested <|
    .unknown (by decide) ⟨none, none⟩ (compact_spelling _) nested <|
    .given ⟨none, none⟩ escaped rfl .none
  have options : OptionsText given _ := .object (.swap _ _ _) giving <|
    .entries space <| .next none none <| .next space none <| .next none none <| .closed none
  have whole := ConfigText.array none options (.entries none (.closed none)) newline
  have spelled : ConfigText given text.toList := by
    refine Eq.subst (motive := ConfigText given) ?_ whole
    decide
  exact ⟨spelled, spelling_irrelevant _ text spelled⟩

end SymbolTable
