import SymbolTable.Ty

/-!
Types read off their texts. Each array layer is a pair of brackets at the end, so a text tells
the layers by how often brackets can be stripped, and what is left tells the innermost type,
unless a class is named like a keyword or like an array.
-/
namespace SymbolTable.Ty

def keywords : List String :=
  ["int", "float", "boolean", "char", "String", "void"]

def brackets : List Char := ['[', ']']

/-- A text without the brackets at its end, stripped as long as there are any, and how
many pairs there were. -/
def stripped (text : List Char) : List Char × Nat :=
  if brackets <:+ text then
    let inner := stripped (text.take (text.length - brackets.length))
    (inner.1, inner.2 + 1)
  else
    (text, 0)
termination_by text.length
decreasing_by
  have room := List.IsSuffix.length_le ‹brackets <:+ text›
  have two : brackets.length = 2 := rfl
  rw [List.length_take]
  omega

def ofText (text : String) : Ty :=
  let word := stripped text.toList
  (ofWord (String.ofList word.1)).layered word.2

/-- The innermost type is a keyword, or a class named neither like a keyword nor like an
array. -/
def Readable (ty : Ty) : Prop :=
  ∀ name, ty.base = .named name → name ∉ keywords ∧ ¬ brackets <:+ name.toList

def layersText (layers : Nat) : List Char :=
  (List.replicate layers brackets).flatten

theorem layersText_succ (layers : Nat) :
    layersText (layers + 1) = layersText layers ++ brackets := by
  rw [layersText, List.replicate_succ', List.flatten_append]
  simp [layersText]

theorem take_brackets (text : List Char) :
    (text ++ brackets).take ((text ++ brackets).length - brackets.length) = text := by
  simp [brackets]

theorem stripped_brackets (text : List Char) :
    stripped (text ++ brackets) = ((stripped text).1, (stripped text).2 + 1) := by
  rw [stripped, if_pos (List.suffix_append text brackets), take_brackets]

theorem stripped_bare (text : List Char) (bare : ¬ brackets <:+ text) :
    stripped text = (text, 0) := by
  rw [stripped, if_neg bare]

theorem stripped_whole (text : List Char) :
    text = (stripped text).1 ++ layersText (stripped text).2 ∧ ¬ brackets <:+ (stripped text).1 := by
  induction text using stripped.induct with
  | case1 text ends ih =>
      obtain ⟨front, rfl⟩ := ends
      rw [take_brackets] at ih
      rw [stripped_brackets, layersText_succ, ← List.append_assoc, ← ih.1]
      exact ⟨rfl, ih.2⟩
  | case2 text bare =>
      rw [stripped_bare text bare]
      exact ⟨by simp [layersText], bare⟩

/-- There is one way to strip a text as far as possible. -/
theorem stripped_iff (text word : List Char) (layers : Nat) :
    stripped text = (word, layers) ↔ text = word ++ layersText layers ∧ ¬ brackets <:+ word := by
  constructor
  · intro left
    have whole := stripped_whole text
    rwa [left] at whole
  · rintro ⟨rfl, bare⟩
    induction layers with
    | zero => simpa [layersText] using stripped_bare word bare
    | succ layers ih => rw [layersText_succ, ← List.append_assoc, stripped_brackets, ih]

theorem text_layers (ty : Ty) : ty.text.toList = ty.base.text.toList ++ layersText ty.layers := by
  induction ty with
  | array element ih =>
      rw [text, String.toList_append, ih, layers, layersText_succ, ← List.append_assoc]
      rfl
  | _ => simp [base, layers, layersText]

theorem base_word (ty : Ty) :
    (∃ name, ty.base = .named name) ∨ ofKeyword? ty.base.text = some ty.base := by
  induction ty with
  | array element ih => exact ih
  | named name => exact Or.inl ⟨name, rfl⟩
  | _ => exact Or.inr rfl

theorem mem_keywords (word : String) :
    word ∈ keywords ↔ (ofKeyword? word).isSome := by
  unfold ofKeyword?
  split <;> simp_all [keywords]

theorem keyword_bare (word : String) (keyword : word ∈ keywords) :
    ¬ brackets <:+ word.toList := by
  revert word
  decide

namespace Readable

variable {ty : Ty}

theorem bare (readable : ty.Readable) : ¬ brackets <:+ ty.base.text.toList := by
  rcases ty.base_word with ⟨name, named⟩ | keyword
  · rw [named]
    exact (readable name named).2
  · apply keyword_bare
    rw [mem_keywords, keyword]
    rfl

theorem word (readable : ty.Readable) : ofWord ty.base.text = ty.base := by
  rcases ty.base_word with ⟨name, named⟩ | keyword
  · have other := mt (mem_keywords name).mpr (readable name named).1
    rw [named, text, ofWord, Option.not_isSome_iff_eq_none.mp other, Option.getD_none]
  · rw [ofWord, keyword, Option.getD_some]

theorem ofText_text (readable : ty.Readable) : ofText ty.text = ty := by
  have whole := (stripped_iff ty.text.toList _ _).mpr ⟨ty.text_layers, readable.bare⟩
  rw [ofText, whole, String.ofList_toList, readable.word, layered_base]

end Readable

/-- A type can be read off its text, as long as the class inside is not named like a keyword
or like an array: so it is the only such type of that text. -/
theorem text_tells (ty other : Ty) (readable : ty.Readable) (otherReadable : other.Readable) :
    ty.text = ty.base.text ++ String.join (List.replicate ty.layers "[]") ∧
      ofText ty.text = ty ∧ (ty.text = other.text ↔ ty = other) := by
  refine ⟨?_, readable.ofText_text, ?_, congrArg text⟩
  · apply String.toList_inj.mp
    rw [text_layers, String.toList_append, String.toList_join, List.flatMap_def,
      List.map_replicate]
    rfl
  · intro same
    rw [← readable.ofText_text, same, otherReadable.ofText_text]

/-- Names may end in one bracket, or begin like an array. -/
theorem text_tells_bracketed :
    let ty : Ty := .array (.array (.named "[]a]"))
    let other : Ty := .array (.named "[]a][")
    ty.Readable ∧ other.Readable ∧
      ty.text = ty.base.text ++ String.join (List.replicate ty.layers "[]") ∧
      ofText ty.text = ty ∧ (ty.text = other.text ↔ ty = other) := by
  intro ty other
  have readable : ty.Readable := by
    rintro name ⟨⟩
    decide
  have otherReadable : other.Readable := by
    rintro name ⟨⟩
    decide
  exact ⟨readable, otherReadable, text_tells ty other readable otherReadable⟩

end SymbolTable.Ty
