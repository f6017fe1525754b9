import SymbolTable.Proofs.Config.RoundTrip

/-!
Compact texts that are cut off. On a beginning of a value a reader either misses
something or takes all that is there: the first digits of a numeral are a numeral.
So what decides is the object around the value, which has not been closed. However
the text is cut, the first thing wrong with it is its end.
-/
namespace SymbolTable

def CutOff (text whole : List Char) : Prop :=
  text <+: whole ∧ text ≠ whole

theorem prefix_cutOff {text whole : List Char} (front : text <+: whole) :
    CutOff text whole ∨ text = whole := by
  by_cases same : text = whole
  · exact .inr same
  · exact .inl ⟨front, same⟩

theorem CutOff.nil {text : List Char} : ¬ CutOff text [] :=
  fun cut => cut.2 (List.prefix_nil.mp cut.1)

theorem CutOff.cons {text whole : List Char} {c : Char} (cut : CutOff text (c :: whole)) :
    text = [] ∨ ∃ more, text = c :: more ∧ CutOff more whole := by
  cases text with
  | nil => exact .inl rfl
  | cons d more =>
      obtain ⟨same, front⟩ := List.cons_prefix_cons.mp cut.1
      subst same
      refine .inr ⟨more, rfl, front, ?_⟩
      intro whole
      exact cut.2 (congrArg (d :: ·) whole)

theorem CutOff.single {text : List Char} {c : Char} (cut : CutOff text [c]) : text = [] := by
  rcases cut.cons with bare | ⟨more, _, inner⟩
  · exact bare
  · exact absurd inner CutOff.nil

theorem CutOff.append {text left right : List Char} (cut : CutOff text (left ++ right)) :
    CutOff text left ∨ ∃ more, text = left ++ more ∧ CutOff more right := by
  induction left generalizing text with
  | nil => exact .inr ⟨text, rfl, cut⟩
  | cons c left ih =>
      rcases cut.cons with bare | ⟨more, same, inner⟩
      · subst bare
        exact .inl ⟨List.nil_prefix, nofun⟩
      · subst same
        rcases ih inner with ⟨front, short⟩ | ⟨rest, same, behind⟩
        · refine .inl ⟨List.cons_prefix_cons.mpr ⟨rfl, front⟩, ?_⟩
          intro whole
          exact short (List.cons.inj whole).2
        · exact .inr ⟨rest, congrArg (c :: ·) same, behind⟩

/-- On every beginning of what is written the reader misses something or takes all
that is there. -/
def Reader.Starves {Value : Type} (reader : Reader Value) (written : List Char) : Prop :=
  ∀ text, text <+: written →
    reader text = .error .truncated ∨ ∃ value, reader text = .ok (value, [])

namespace Read

theorem word_cut (letters text : List Char) (cut : CutOff text letters) :
    word letters text = .error .truncated := by
  induction letters generalizing text with
  | nil => exact absurd cut CutOff.nil
  | cons c letters ih =>
      rcases cut.cons with bare | ⟨more, same, inner⟩
      · rw [bare]
        rfl
      · rw [same, word, if_pos rfl]
        exact ih more inner

theorem truth_starves (value : Bool) : truth.Starves (Compact.truth value) := by
  intro text front
  rcases prefix_cutOff front with cut | whole
  · left
    cases value <;> rcases cut.cons with bare | ⟨more, same, inner⟩
    · rw [bare]
      rfl
    · have missing := word_cut _ more inner
      simp [truth, same, blanks_cons, isBlank, missing, Except.map]
    · rw [bare]
      rfl
    · have missing := word_cut _ more inner
      simp [truth, same, blanks_cons, isBlank, missing, Except.map]
  · right
    rw [whole]
    cases value <;> exact ⟨_, rfl⟩

/-- A code unit of which the last digits are missing. -/
theorem codeUnit_cut (c : Char) (text : List Char) (control : c.toNat < 0x20)
    (cut : CutOff text
      ['0', '0', Nat.digitChar (c.toNat / 16), Nat.digitChar (c.toNat % 16)]) :
    codeUnit text = .error .truncated := by
  have high : Nat.digitChar (c.toNat / 16) = '0' ∨ Nat.digitChar (c.toNat / 16) = '1' := by
    have small : ∀ digit < 2, Nat.digitChar digit = '0' ∨ Nat.digitChar digit = '1' := by decide
    exact small _ (by omega)
  rcases cut.cons with rfl | ⟨text, rfl, three⟩
  · rfl
  rcases three.cons with rfl | ⟨text, rfl, two⟩
  · rfl
  rcases two.cons with rfl | ⟨text, rfl, one⟩
  · rfl
  rw [one.single]
  rcases high with same | same <;> rw [same] <;> rfl

theorem quoted_failed (text : List Char) (error : ReadError) (failed : escape text = .error error) :
    quoted ('\\' :: text) = .error error := by
  simp only [quoted_backslash, failed]

/-- The step lemma: a character that is cut off. -/
theorem escaped_cut (c : Char) (text : List Char) (cut : CutOff text (Compact.escaped c)) :
    quoted text = .error .truncated := by
  have bare : quoted [] = .error .truncated := by rw [quoted]
  have letter : ∀ letter, CutOff text ['\\', letter] → quoted text = .error .truncated := by
    intro letter cut
    rcases cut.cons with rfl | ⟨more, rfl, inner⟩
    · exact bare
    · rw [inner.single]
      exact quoted_failed [] _ rfl
  unfold Compact.escaped at cut
  split at cut
  · exact letter _ cut
  split at cut
  · exact letter _ cut
  split at cut
  · exact letter _ cut
  split at cut
  · exact letter _ cut
  split at cut
  · exact letter _ cut
  split at cut
  · exact letter _ cut
  split at cut
  · exact letter _ cut
  split at cut
  · rename_i control
    rcases cut.cons with rfl | ⟨more, rfl, inner⟩
    · exact bare
    rcases inner.cons with rfl | ⟨digits, rfl, unit⟩
    · exact quoted_failed [] _ rfl
    · apply quoted_failed
      rw [escape, if_pos rfl, codeEscape, codeUnit_cut c digits control unit]
  · rw [cut.single]
    exact bare

theorem quoted_cut (chars text : List Char)
    (cut : CutOff text (chars.flatMap Compact.escaped ++ ['"'])) :
    quoted text = .error .truncated := by
  induction chars generalizing text with
  | nil =>
      rw [cut.single, quoted]
  | cons c chars ih =>
      rw [List.flatMap_cons, List.append_assoc] at cut
      rcases cut.append with inside | ⟨more, rfl, behind⟩
      · exact escaped_cut c text inside
      · rw [quoted_escaped, ih more behind]
        rfl

theorem string_starves (text : String) : string.Starves (Compact.quoted text) := by
  intro front begins
  rcases prefix_cutOff begins with cut | rfl
  · left
    rcases cut.cons with rfl | ⟨more, rfl, inner⟩
    · rfl
    · simp [string, blanks_cons, isBlank, quoted_cut _ _ inner, Except.map]
  · right
    have taken := quoted_compact text.toList []
    exact ⟨text, by simp [string, Compact.quoted, blanks_cons, isBlank, taken, Except.map]⟩

/-- The first digits of a numeral are a numeral. -/
theorem toDigits_front (value : Nat) (text : List Char) (front : text <+: Nat.toDigits 10 value) :
    text = [] ∨ ∃ less ≤ value, text = Nat.toDigits 10 less := by
  induction value using Nat.strongRecOn with
  | _ value ih =>
    by_cases single : value < 10
    · rw [Nat.toDigits_of_lt_base single] at front
      rcases prefix_cutOff front with cut | whole
      · exact .inl cut.single
      · exact .inr ⟨value, Nat.le_refl _, by rw [whole, Nat.toDigits_of_lt_base single]⟩
    · have split := Nat.toDigits_of_base_le (b := 10) (n := value) (by decide) (by omega)
      rcases prefix_cutOff front with cut | whole
      · rw [split] at cut
        have shorter : text <+: Nat.toDigits 10 (value / 10) := by
          rcases cut.append with inside | ⟨more, same, last⟩
          · exact inside.1
          · rw [last.single, List.append_nil] at same
            exact same ▸ List.prefix_refl _
        rcases ih (value / 10) (by omega) shorter with bare | ⟨less, bound, same⟩
        · exact .inl bare
        · exact .inr ⟨less, by omega, same⟩
      · exact .inr ⟨value, Nat.le_refl _, whole⟩

theorem word64_starves (value : UInt64) : word64.Starves (Compact.word value) := by
  intro text front
  rcases toDigits_front value.toNat text front with rfl | ⟨less, bound, rfl⟩
  · exact .inl rfl
  · right
    have small : less < UInt64.size := Nat.lt_of_le_of_lt bound value.toNat_lt_size
    have taken := word64_compact (UInt64.ofNat less) [] trivial
    rw [Compact.word, UInt64.toNat_ofNat_of_lt' small, List.append_nil] at taken
    exact ⟨_, taken⟩

section Record

variable {State : Type} (fields : List (Field State))

theorem nextKey_row (first : Bool) (text : List Char) :
    nextKey first (separator first ++ '"' :: text) = .ok (.another text) := by
  cases first <;> rfl

theorem members_stopped (first : Bool) (state : State) (text : List Char) (error : ReadError)
    (stopped : nextKey first text = .error error) :
    members fields first state text = .error error := by
  simp only [members_eq, stopped]

theorem members_failed (first : Bool) (state : State) (text key : List Char) (error : ReadError)
    (next : nextKey first text = .ok (.another key))
    (failed : member fields state key = .error error) :
    members fields first state text = .error error := by
  simp only [members_eq, next, failed]

theorem members_nothing (first : Bool) (state : State) :
    members fields first state [] = .error .truncated :=
  members_stopped fields first state [] _ rfl

/-- A member that is cut off in front of its value. -/
theorem members_keyless (first : Bool) (field : Field State) (state : State) (key : String)
    (text : List Char) (listed : fields.find? (fun other => other.key == key) = some field)
    (unset : field.isSet state = false)
    (cut : CutOff text (Compact.quoted key ++ [':'])) :
    members fields first state (separator first ++ text) = .error .truncated := by
  rcases cut.append with inside | ⟨more, rfl, last⟩
  · rcases inside.cons with rfl | ⟨begun, rfl, unclosed⟩
    · apply members_stopped
      cases first <;> rfl
    · apply members_failed fields first state _ _ _ (nextKey_row first begun)
      rw [member, quoted_cut _ _ unclosed]
  · rw [last.single, List.append_nil]
    apply members_failed fields first state _ _ _ (nextKey_row first _)
    have none : colon [] = .error .truncated := rfl
    simp only [member, quoted_compact, String.ofList_toList, listed, unset, none]
    rfl

/-- A member that ends with the text: its value is missing, or what follows it. -/
theorem members_starved (first : Bool) (field : Field State) (state : State) (key : String)
    (value text : List Char) (listed : fields.find? (fun other => other.key == key) = some field)
    (unset : field.isSet state = false) (starves : (field.read state).Starves value)
    (front : text <+: value) :
    members fields first state (separator first ++ (Compact.quoted key ++ ':' :: text)) =
      .error .truncated := by
  have next := nextKey_row first (key.toList.flatMap Compact.escaped ++ '"' :: ':' :: text)
  have opened := member_read fields field state key text listed unset
  have shown : Compact.quoted key ++ ':' :: text =
      '"' :: (key.toList.flatMap Compact.escaped ++ '"' :: ':' :: text) := by
    simp [Compact.quoted]
  rw [shown]
  rcases starves text front with missing | ⟨after, whole⟩
  · exact members_failed fields first state _ _ _ next (opened.trans missing)
  · rw [members_another fields first state after _ _ [] next (opened.trans whole)]
    exact members_nothing fields false after

/-- The run lemma: an object of which anything is missing. -/
theorem members_cut (first : Bool) (state last : State) (written : List (String × List Char))
    (text : List Char) (taken : Taken fields state written last)
    (starves : ∀ member ∈ written, ∀ field,
      fields.find? (fun other => other.key == member.1) = some field →
        ∀ state, (field.read state).Starves member.2)
    (cut : CutOff text (row first written ++ ['\x7d'])) :
    members fields first state text = .error .truncated := by
  induction taken generalizing first text with
  | none state =>
      rw [cut.single]
      exact members_nothing fields first state
  | @member state after last key value more field listed unset restores taken ih =>
      have value_starves := starves (key, value) List.mem_cons_self field listed state
      rw [row, List.append_assoc, List.append_assoc] at cut
      rcases cut.append with inside | ⟨text, rfl, member⟩
      · have bare : text = [] := by
          cases first with
          | true => exact absurd inside CutOff.nil
          | false => exact inside.single
        rw [bare]
        exact members_nothing fields first state
      have shown : Compact.member key value ++ (row false more ++ ['\x7d']) =
          (Compact.quoted key ++ [':']) ++ (value ++ (row false more ++ ['\x7d'])) := by
        simp [Compact.member]
      rw [shown] at member
      rcases member.append with keyless | ⟨text, rfl, behind⟩
      · exact members_keyless fields first field state key text listed unset keyless
      rw [List.append_assoc, List.singleton_append]
      rcases behind.append with inside | ⟨text, rfl, rest⟩
      · exact members_starved fields first field state key value text listed unset value_starves
          inside.1
      -- Unless the text ends right behind the value, what is left of it says so.
      cases text with
      | nil =>
          rw [List.append_nil]
          exact members_starved fields first field state key value value listed unset value_starves
            (List.prefix_refl _)
      | cons c text =>
          have closes : Closes (c :: text) := by
            have whole := closes_row more []
            obtain ⟨behind, split⟩ := rest.1
            rw [← split] at whole
            exact whole
          have step := members_member fields first field state after key value (c :: text) listed
            unset restores closes
          rw [Compact.member, List.append_assoc, List.append_assoc] at step
          rw [← List.cons_append, step]
          have others := fun member inside => starves member (List.mem_cons_of_mem _ inside)
          exact ih false (c :: text) others rest

theorem record_cut (shape : Record State) (state last : State)
    (written : List (String × List Char)) (text : List Char)
    (taken : Taken shape.fields state written last)
    (starves : ∀ member ∈ written, ∀ field,
      shape.fields.find? (fun other => other.key == member.1) = some field →
        ∀ state, (field.read state).Starves member.2)
    (cut : CutOff text ('\x7b' :: (row true written ++ ['\x7d']))) :
    record shape state text = .error .truncated := by
  rcases cut.cons with rfl | ⟨more, rfl, inside⟩
  · rfl
  · exact members_cut shape.fields true state last written more taken starves inside

end Record

theorem plain_starves {State Value : Type} (key : String) (get : State → Option Value)
    (put : State → Value → State) (reader : Reader Value) (consumes : reader.Consumes)
    (state : State) (written : List Char) (starves : reader.Starves written) :
    ((Field.plain key get put reader consumes).read state).Starves written := by
  intro text front
  rcases starves text front with missing | ⟨value, whole⟩
  · left
    simp only [Field.plain, missing]
    rfl
  · right
    refine ⟨put state value, ?_⟩
    simp only [Field.plain, whole]
    rfl

end Read

open Read

theorem options_starves (options : RenderOptions) :
    (record GivenOptions.shape {}).Starves (Compact.options options) := by
  have starves : ∀ member ∈ optionsRow options, ∀ field,
      GivenOptions.shape.fields.find? (fun other => other.key == member.1) = some field →
        ∀ state, (field.read state).Starves member.2 := by
    simp only [optionsRow, List.forall_mem_cons]
    refine ⟨?_, ?_, ?_, ?_, List.forall_mem_nil _⟩
    · intro field listed state
      cases listed
      exact plain_starves _ _ _ _ _ _ _ (truth_starves _)
    · intro field listed state
      cases listed
      exact plain_starves _ _ _ _ _ _ _ (string_starves _)
    · intro field listed state
      cases listed
      exact plain_starves _ _ _ _ _ _ _ (word64_starves _)
    · intro field listed state
      cases listed
      exact plain_starves _ _ _ _ _ _ _ (truth_starves _)
  intro text front
  rw [options_row] at front
  rcases prefix_cutOff front with cut | rfl
  · exact .inl (record_cut _ _ _ _ text (options_taken options) starves cut)
  · exact .inr ⟨_, record_taken GivenOptions.shape _ _ _ [] (options_taken options)⟩

theorem null_starves {Value : Type} (reader : Reader Value)
    (missing : reader [] = .error .truncated) : (orNull reader).Starves ['n', 'u', 'l', 'l'] := by
  intro text front
  rcases prefix_cutOff front with cut | rfl
  · left
    rcases cut.cons with rfl | ⟨more, rfl, inner⟩
    · simp [orNull, blanks, missing, Except.map]
    · simp [orNull, blanks_cons, isBlank, word_cut _ more inner, Except.map]
  · exact .inr ⟨none, rfl⟩

/-- The beginning of a record is no beginning of the word for none. -/
theorem object_starves {Value : Type} (reader : Reader Value) (written : List Char)
    (starves : reader.Starves ('\x7b' :: written)) :
    (orNull reader).Starves ('\x7b' :: written) := by
  intro text front
  have opened : orNull reader text = (reader text).map (Prod.map some id) := by
    cases text with
    | nil => rfl
    | cons c text =>
        obtain ⟨rfl, _⟩ := List.cons_prefix_cons.mp front
        rw [orNull, blanks_cons _ _ rfl]
        rfl
  rw [opened]
  rcases starves text front with missing | ⟨value, whole⟩
  · left
    rw [missing]
    rfl
  · right
    rw [whole]
    exact ⟨some value, rfl⟩

theorem render_starves (render? : Option RenderOptions) :
    (orNull (record GivenOptions.shape {})).Starves (renderText render?) := by
  cases render? with
  | none => exact null_starves _ rfl
  | some render => exact object_starves _ _ (options_starves render)

/-- A configuration whose compact text has been cut off anywhere is no configuration: it
is told to be cut off, and never to be malformed or unfitting. -/
theorem truncation_told (config : Config) (text : String)
    (front : text.toList <+: config.compact.toList) (short : text ≠ config.compact) :
    Config.read text = .error .truncated ∧
      Config.readBytes (some text.toUTF8) = .error (.invalid .truncated) := by
  have starves : ∀ member ∈ [("render", renderText config.render?)], ∀ field,
      GivenConfig.shape.fields.find? (fun other => other.key == member.1) = some field →
        ∀ state, (field.read state).Starves member.2 := by
    simp only [List.forall_mem_cons]
    refine ⟨?_, List.forall_mem_nil _⟩
    intro field listed state
    cases listed
    exact plain_starves _ _ _ _ _ _ _ (render_starves _)
  have cut : CutOff text.toList config.compact.toList :=
    ⟨front, fun same => short (String.toList_inj.mp same)⟩
  rw [Config.compact, String.toList_ofList, config.compact_row] at cut
  have missing := record_cut _ _ _ _ text.toList config.taken starves cut
  have refused : Config.read text = .error .truncated := by
    rw [Config.read, Config.readChars, missing]
  refine ⟨refused, ?_⟩
  simp only [Config.readBytes, fromUTF8_toUTF8, refused]

/-- The first digit of a width is a width itself, and an escape is cut off in the middle
of its code unit. -/
theorem truncation_told_inside :
    let config : Config := ⟨some { memberTerminator := "\x1b", indentWidth := 12 }⟩
    let width := "\x7b\"render\":\x7b\"classMembers\":false,\"memberTerminator\":\"\\u001b\"," ++
      "\"indentWidth\":1"
    let escape := "\x7b\"render\":\x7b\"classMembers\":false,\"memberTerminator\":\"\\u00"
    (width.toList <+: config.compact.toList ∧ width ≠ config.compact ∧
        Config.read width = .error .truncated) ∧
      escape.toList <+: config.compact.toList ∧ escape ≠ config.compact ∧
        Config.read escape = .error .truncated := by
  intro config width escape
  have chars : config.compact.toList = Compact.config config := String.toList_ofList
  have front : width.toList <+: config.compact.toList := by
    rw [chars]
    decide
  have begins : escape.toList <+: config.compact.toList := by
    rw [chars]
    decide
  have short : width ≠ config.compact := by
    rw [ne_eq, ← String.toList_inj, chars]
    decide
  have other : escape ≠ config.compact := by
    rw [ne_eq, ← String.toList_inj, chars]
    decide
  exact ⟨⟨front, short, (truncation_told config width front short).1⟩, begins, other,
    (truncation_told config escape begins other).1⟩

end SymbolTable
