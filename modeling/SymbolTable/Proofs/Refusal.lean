import SymbolTable.Proofs.Template
import SymbolTable.Proofs.WellFormed

/-!
What the diagnostic for a refusal says: the message of the refusal as a sentence, in
which the scope is called by its name. The refused name is the first argument of the
text, so a hole that the name brings along is filled like one of the text's own: the
diagnostic says the same as the refusal only if no such hole is in the name.
-/
namespace SymbolTable

def sentence (text : String) : String :=
  String.ofList (text.toList.modifyHead Char.toUpper ++ ['.'])

def Quotes (text name : String) : Prop :=
  ("'" ++ name ++ "'").toList <:+: text.toList

/-- The name that a binding or a parameter was refused, and the name of the scope that
refused it. -/
inductive Refused : String → String → Refusal → Prop where
  | binding {scope : Scope} {name entry refusal} : scope.bind name entry = .error refusal →
      Refused name scope.name refusal
  | parameter {method : Method} {parameter : Variable} {refusal} :
      method.addParameter parameter = .error refusal → Refused parameter.name method.name refusal

namespace Refusal

def tellsName : Refusal → Bool
  | .duplicateName .. | .parameterAfterBody .. => true
  | .disallowedKind .. | .emptyName .. => false

def filledName (name : String) (behind : List String) : String :=
  String.ofList (Template.fillFrom 1 (behind.map String.toList) name.toList)

/-- The refusal of the name that the diagnostic tells. -/
def filled : Refusal → Refusal
  | .duplicateName name scope kind =>
      .duplicateName (filledName name [kind.text, scope]) scope kind
  | .disallowedKind name kind owner => .disallowedKind name kind owner
  | .parameterAfterBody name method => .parameterAfterBody (filledName name [method]) method
  | .emptyName scope kind => .emptyName scope kind

/-- The refused name holds no hole that is filled with anything but itself. -/
def Verbatim : Refusal → Prop
  | .duplicateName name scope _ =>
      ¬ Template.hole 1 <:+: name.toList ∧
        (Template.hole 2 <:+: name.toList → scope.toList = Template.hole 2)
  | .parameterAfterBody name method =>
      Template.hole 1 <:+: name.toList → method.toList = Template.hole 1
  | .disallowedKind .. | .emptyName .. => True

end Refusal

/-- What a diagnostic at `span` says for the refusal of `name` in the scope `owner`. -/
structure Reports (reported : Diagnostic) (refusal : Refusal) (name owner : String) (span : Span) :
    Prop where
  span : reported.span? = some span
  isError : reported.isError = true
  text : reported.text = sentence refusal.filled.message
  same : reported.text = sentence refusal.message ↔ refusal.Verbatim
  owner : Quotes reported.text owner
  name : refusal.tellsName = true → refusal.Verbatim → Quotes reported.text name

theorem sentence_toList (front rest : String) (opened : front.toList ≠ []) :
    (sentence (front ++ rest)).toList =
      front.toList.modifyHead Char.toUpper ++ (rest.toList ++ ['.']) := by
  rw [sentence, String.toList_ofList, String.toList_append]
  cases chars : front.toList with
  | nil => exact absurd chars opened
  | cons first behind => simp

theorem sentence_inj (front left right : String) (opened : front.toList ≠ []) :
    sentence (front ++ left) = sentence (front ++ right) ↔ left = right := by
  rw [← String.toList_inj, sentence_toList front left opened, sentence_toList front right opened,
    List.append_cancel_left_eq, List.append_cancel_right_eq, String.toList_inj]

theorem quotes_of_split (text front name behind : String)
    (split : text.toList = front.toList ++ '\'' :: (name.toList ++ '\'' :: behind.toList)) :
    Quotes text name := by
  rw [Quotes, split]
  exact ⟨front.toList, behind.toList, by simp⟩

theorem Message.text_sentence (message : Message) (known : message ∈ Message.all)
    (args : List String) (front rest : String) (opened : front.toList ≠ [])
    (parts : message.template.flatMap (Template.filled (args.map String.toList)) =
      front.toList.modifyHead Char.toUpper ++ (rest.toList ++ ['.'])) :
    message.text args = sentence (front ++ rest) := by
  apply String.toList_inj.mp
  rw [message.text_parts (message.all_spaced known), parts, sentence_toList front rest opened]

@[simp]
theorem Kind.fillFrom_text (number : Nat) (args : List (List Char)) (kind : Kind) :
    Template.fillFrom number args kind.text.toList = kind.text.toList := by
  have visible : '\x7b' ∉ kind.text.toList := by cases kind <;> decide
  have whole := Template.fillFrom_literal number args kind.text.toList [] visible
  rwa [List.append_nil, Template.fillFrom_nil, List.append_nil] at whole

namespace Refusal

theorem duplicateName_message (name scope : String) (kind : Kind) :
    (duplicateName name scope kind).message =
      "'" ++ (name ++ ("' is already declared in " ++ kind.text ++ " '" ++ scope ++ "'")) := by
  rw [← String.append_assoc, ← String.append_assoc, ← String.append_assoc, ← String.append_assoc,
    ← String.append_assoc]
  rfl

theorem disallowedKind_message (name owner : String) (kind : Kind) :
    (disallowedKind name kind owner).message =
      "a " ++ (kind.text ++ (" cannot be declared in class '" ++ (owner ++ "'"))) := by
  rw [← String.append_assoc, ← String.append_assoc, ← String.append_assoc]
  rfl

theorem parameterAfterBody_message (name method : String) :
    (parameterAfterBody name method).message =
      "parameter '" ++ (name ++ ("' must be declared before the body of method '" ++
        (method ++ "'"))) := by
  rw [← String.append_assoc, ← String.append_assoc, ← String.append_assoc]
  rfl

theorem emptyName_message (scope : String) (kind : Kind) :
    (emptyName scope kind).message =
      "a declaration in " ++ (kind.text ++ (" '" ++ (scope ++ "' has no name"))) := by
  rw [← String.append_assoc, ← String.append_assoc, ← String.append_assoc]
  rfl

/-- The parts of the template say what the parts of the message say. -/
theorem diagnostic_text (refusal : Refusal) (span : Span) :
    (refusal.diagnostic span).text = sentence refusal.filled.message := by
  cases refusal with
  | duplicateName name scope kind =>
      rw [filled, duplicateName_message]
      apply Message.text_sentence .alreadyDeclared (by simp [Message.all]) _ _ _ (by simp)
      simp [Message.alreadyDeclared, Template.filled, filledName]
  | disallowedKind name kind owner =>
      rw [filled, disallowedKind_message]
      apply Message.text_sentence .kindNotAllowed (by simp [Message.all]) _ _ _ (by simp)
      simp [Message.kindNotAllowed, Template.filled]
  | parameterAfterBody name method =>
      rw [filled, parameterAfterBody_message]
      apply Message.text_sentence .parameterAfterBody (by simp [Message.all]) _ _ _ (by simp)
      simp [Message.parameterAfterBody, Template.filled, filledName]
  | emptyName scope kind =>
      rw [filled, emptyName_message]
      apply Message.text_sentence .unnamedDeclaration (by simp [Message.all]) _ _ _ (by simp)
      simp [Message.unnamedDeclaration, Template.filled]

theorem filledName_one (name behind : String) :
    filledName name [behind] = name ↔
      (Template.hole 1 <:+: name.toList → behind.toList = Template.hole 1) := by
  rw [← Template.replace_fixed _ _ _ (Template.hole_ne_nil 1), ← String.toList_inj, filledName,
    String.toList_ofList]
  rfl

/-- A kind's letters show where it was put in, whatever the scope's name puts in. -/
theorem filledName_kind (name scope : String) (kind : Kind) :
    filledName name [kind.text, scope] = name ↔
      ¬ Template.hole 1 <:+: name.toList ∧
        (Template.hole 2 <:+: name.toList → scope.toList = Template.hole 2) := by
  have filling : filledName name [kind.text, scope] = name ↔
      Template.replace (Template.hole 2) scope.toList 0
        (Template.replace (Template.hole 1) kind.text.toList 0 name.toList) = name.toList := by
    rw [← String.toList_inj, filledName, String.toList_ofList]
    rfl
  rw [filling]
  by_cases occurs : Template.hole 1 <:+: name.toList
  · have letter : ∃ c ∈ kind.text.toList, Template.sign c = false := by
      cases kind <;> exact ⟨_, List.mem_cons_self, rfl⟩
    obtain ⟨c, brought, plain⟩ := letter
    have outside (number : Nat) : c ∉ Template.hole number := by
      intro inside
      rw [Template.sign_of_hole number c inside] at plain
      cases plain
    have more := Template.count_replace_lt _ kind.text.toList name.toList c
      (Template.hole_ne_nil 1) (outside 1) brought occurs
    have kept := Template.count_replace_le (Template.hole 2) scope.toList
      (Template.replace (Template.hole 1) kind.text.toList 0 name.toList) c
      (Template.hole_ne_nil 2) (outside 2)
    constructor
    · intro same
      rw [same] at kept
      omega
    · exact fun absent => absurd occurs absent.1
  · rw [Template.replace_absent _ _ _ occurs,
      Template.replace_fixed _ _ _ (Template.hole_ne_nil 2)]
    exact (and_iff_right occurs).symm

theorem sentence_filled (refusal : Refusal) :
    sentence refusal.filled.message = sentence refusal.message ↔ refusal.Verbatim := by
  cases refusal with
  | duplicateName name scope kind =>
      rw [filled, duplicateName_message, duplicateName_message, sentence_inj _ _ _ (by simp),
        String.append_left_inj, Verbatim, ← filledName_kind name scope kind]
  | parameterAfterBody name method =>
      rw [filled, parameterAfterBody_message, parameterAfterBody_message,
        sentence_inj _ _ _ (by simp), String.append_left_inj, Verbatim, ← filledName_one]
  | disallowedKind name kind owner | emptyName scope kind => simp [filled, Verbatim]

theorem diagnostic_located (refusal : Refusal) (span : Span) :
    (refusal.diagnostic span).span? = some span ∧ (refusal.diagnostic span).isError = true := by
  cases refusal <;> exact ⟨rfl, rfl⟩

end Refusal

theorem Scope.insert_error (scope : Scope) (name : String) (entry : Entry) (refusal : Refusal)
    (failed : scope.insert name entry = .error refusal) :
    refusal = .emptyName scope.name scope.kind ∨
      refusal = .duplicateName name scope.name scope.kind := by
  unfold insert at failed
  split at failed
  · cases failed
    exact .inl rfl
  · split at failed
    · cases failed
      exact .inr rfl
    · cases failed

/-- A refusal tells of the name that was offered and of the scope that refused it. -/
theorem Refused.forms {name owner : String} {refusal : Refusal}
    (refused : Refused name owner refusal) :
    (∃ kind, refusal = .duplicateName name owner kind) ∨
      (∃ kind, refusal = .disallowedKind name kind owner) ∨
      refusal = .parameterAfterBody name owner ∨ ∃ kind, refusal = .emptyName owner kind := by
  cases refused with
  | @binding scope name entry refusal failed =>
      unfold Scope.bind at failed
      split at failed
      · rcases scope.insert_error name entry refusal failed with empty | duplicate
        · exact .inr (.inr (.inr ⟨_, empty⟩))
        · exact .inl ⟨_, duplicate⟩
      · cases failed
        exact .inr (.inl ⟨_, rfl⟩)
  | @parameter method parameter refusal failed =>
      unfold Method.addParameter at failed
      split at failed
      · cases failed
        exact .inr (.inr (.inl rfl))
      · cases inserted : method.scope.insert parameter.name (.leaf parameter) with
        | ok scope =>
            rw [inserted] at failed
            cases failed
        | error refusal =>
            rw [inserted] at failed
            cases failed
            rcases method.scope.insert_error _ _ _ inserted with empty | duplicate
            · exact .inr (.inr (.inr ⟨_, empty⟩))
            · exact .inl ⟨_, duplicate⟩

theorem Refused.quotes_owner {name owner : String} {refusal : Refusal}
    (refused : Refused name owner refusal) : Quotes (sentence refusal.filled.message) owner := by
  rcases refused.forms with ⟨kind, same⟩ | ⟨kind, same⟩ | same | ⟨kind, same⟩ <;> subst same
  · apply quotes_of_split _ ("'" ++ Refusal.filledName name [kind.text, owner] ++
      "' is already declared in " ++ kind.text ++ " ") owner "."
    rw [Refusal.filled, Refusal.duplicateName_message, sentence_toList _ _ (by simp)]
    simp
  · apply quotes_of_split _ ("A " ++ kind.text ++ " cannot be declared in class ") owner "."
    rw [Refusal.filled, Refusal.disallowedKind_message, sentence_toList _ _ (by simp)]
    simp
  · apply quotes_of_split _ ("Parameter '" ++ Refusal.filledName name [owner] ++
      "' must be declared before the body of method ") owner "."
    rw [Refusal.filled, Refusal.parameterAfterBody_message, sentence_toList _ _ (by simp)]
    simp
  · apply quotes_of_split _ ("A declaration in " ++ kind.text ++ " ") owner " has no name."
    rw [Refusal.filled, Refusal.emptyName_message, sentence_toList _ _ (by simp)]
    simp

theorem Refused.quotes_name {name owner : String} {refusal : Refusal}
    (refused : Refused name owner refusal) (tells : refusal.tellsName = true) :
    Quotes (sentence refusal.message) name := by
  rcases refused.forms with ⟨kind, same⟩ | ⟨kind, same⟩ | same | ⟨kind, same⟩ <;> subst same
  · apply quotes_of_split _ "" name
      (" is already declared in " ++ kind.text ++ " '" ++ owner ++ "'.")
    rw [Refusal.duplicateName_message, sentence_toList _ _ (by simp)]
    simp
  · cases tells
  · apply quotes_of_split _ "Parameter " name
      (" must be declared before the body of method '" ++ owner ++ "'.")
    rw [Refusal.parameterAfterBody_message, sentence_toList _ _ (by simp)]
    simp
  · cases tells

/-- Whatever scope refuses a binding or a parameter, the diagnostic stands at the span of
the declaration, is an error, and says what the refusal says, with the holes in the
refused name filled: so exactly the same if the name is told verbatim. The name of the
scope is quoted in any case. -/
theorem refusal_reported (name owner : String) (refusal : Refusal)
    (refused : Refused name owner refusal) (span : Span) :
    Reports (refusal.diagnostic span) refusal name owner span := by
  obtain ⟨located, isError⟩ := refusal.diagnostic_located span
  have text := refusal.diagnostic_text span
  have same : (refusal.diagnostic span).text = sentence refusal.message ↔ refusal.Verbatim := by
    rw [text, refusal.sentence_filled]
  refine ⟨located, isError, text, same, ?_, ?_⟩
  · rw [text]
    exact refused.quotes_owner
  · intro tells verbatim
    rw [same.mpr verbatim]
    exact refused.quotes_name tells

/-- A hole of its own number is no hole to a name: a parameter that comes behind the
body of a method. -/
theorem refusal_reported_late :
    let late : Variable := ⟨"\x7b0\x7d", .int⟩
    let method : Method := ⟨"m", .void, 0, ⟨[("x", .leaf ⟨"x", .int⟩)], none⟩⟩
    let refusal : Refusal := .parameterAfterBody "\x7b0\x7d" "m"
    let reported := refusal.diagnostic ⟨30, 3⟩
    method.addParameter late = .error refusal ∧ refusal.Verbatim ∧
      Reports reported refusal "\x7b0\x7d" "m" ⟨30, 3⟩ ∧
      reported.text =
        "Parameter '\x7b0\x7d' must be declared before the body of method 'm'." := by
  intro late method refusal reported
  have failed : method.addParameter late = .error refusal := rfl
  have verbatim : refusal.Verbatim := by
    intro inside
    exact absurd inside (by decide)
  have reports := refusal_reported "\x7b0\x7d" "m" refusal (.parameter failed) ⟨30, 3⟩
  have told : sentence refusal.message =
      "Parameter '\x7b0\x7d' must be declared before the body of method 'm'." := by
    apply String.toList_inj.mp
    rw [Refusal.parameterAfterBody_message, sentence_toList _ _ (by simp)]
    simp
  exact ⟨failed, verbatim, reports, (reports.same.mpr verbatim).trans told⟩

/-- A field that is called by the second hole of the text is refused under one name and
reported under another. -/
theorem refusal_misreported :
    let x : Entry := .leaf ⟨"\x7b1\x7d", .int⟩
    let point : Scope := ⟨.nested (.class "Point" none), ⟨[("\x7b1\x7d", x)], none⟩⟩
    let refusal : Refusal := .duplicateName "\x7b1\x7d" "Point" .class
    let reported := refusal.diagnostic ⟨0, 1⟩
    Obtainable point.tree ∧ Refused "\x7b1\x7d" "Point" refusal ∧
      sentence refusal.message = "'\x7b1\x7d' is already declared in class 'Point'." ∧
      reported.text = "'class' is already declared in class 'Point'." ∧
      reported.text ≠ sentence refusal.message ∧ ¬ Quotes reported.text "\x7b1\x7d" := by
  intro x point refusal reported
  have obtained : Obtainable point.tree := by
    have start := @Obtainable.class "Point" ⟨"Point", none, .empty⟩ rfl
    have field := @Obtainable.variable "\x7b1\x7d" .int ⟨"\x7b1\x7d", .int⟩ rfl
    exact start.run [.at [] (.bind "\x7b1\x7d" x)]
      (by simp [Operation.brought?, Act.brought?, x, field])
  have refused : Refused "\x7b1\x7d" "Point" refusal :=
    @Refused.binding point "\x7b1\x7d" x refusal rfl
  have told : sentence refusal.message = "'\x7b1\x7d' is already declared in class 'Point'." := by
    apply String.toList_inj.mp
    rw [Refusal.duplicateName_message, sentence_toList _ _ (by simp)]
    simp [Kind.text]
  have filled : Refusal.filledName "\x7b1\x7d" ["class", "Point"] = "class" := by cbv
  have text : reported.text = "'class' is already declared in class 'Point'." := by
    apply String.toList_inj.mp
    rw [refusal.diagnostic_text, Refusal.filled, Kind.text, filled,
      Refusal.duplicateName_message, sentence_toList _ _ (by simp)]
    simp [Kind.text]
  have differs : reported.text ≠ sentence refusal.message := by
    rw [text, told, ne_eq, ← String.toList_inj]
    simp
  have unquoted : ¬ Quotes reported.text "\x7b1\x7d" := by
    rw [text]
    intro inside
    have brace := inside.subset (show '\x7b' ∈ ("'" ++ "\x7b1\x7d" ++ "'").toList by simp)
    simp at brace
  exact ⟨obtained, refused, told, text, differs, unquoted⟩

end SymbolTable
