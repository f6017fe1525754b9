import SymbolTable.Proofs.Message

/-!
Filling templates whose holes stand clear of one another. An argument may bring holes
along, and these are filled by later arguments; but none arises between an argument
and the text around it, so each part of the template is filled by itself.
-/
namespace SymbolTable

namespace Template

theorem replace_here (pattern arg rest : List Char) (proper : pattern ≠ []) :
    replace pattern arg 0 (pattern ++ rest) = arg ++ replace pattern arg 0 rest := by
  cases pattern with
  | nil => exact absurd rfl proper
  | cons first pattern =>
      have starts : (first :: pattern).isPrefixOf (first :: (pattern ++ rest)) = true :=
        List.isPrefixOf_iff_prefix.mpr ⟨rest, rfl⟩
      rw [List.cons_append, replace, if_pos starts, replace_drop]
      simp

theorem replace_other (pattern arg rest : List Char) (c : Char)
    (differs : ¬ pattern <+: c :: rest) :
    replace pattern arg 0 (c :: rest) = c :: replace pattern arg 0 rest := by
  rw [replace, if_neg]
  exact fun starts => differs (List.isPrefixOf_iff_prefix.mp starts)

/-- Induction on a text as it is searched for a pattern. -/
theorem searched (pattern : List Char) (proper : pattern ≠ []) {motive : List Char → Prop}
    (nil : motive []) (here : ∀ rest, motive rest → motive (pattern ++ rest))
    (other : ∀ c rest, ¬ pattern <+: c :: rest → motive rest → motive (c :: rest))
    (text : List Char) : motive text := by
  induction size : text.length using Nat.strongRecOn generalizing text with
  | ind size ih =>
      cases text with
      | nil => exact nil
      | cons c rest =>
          rw [List.length_cons] at size
          by_cases starts : pattern <+: c :: rest
          · obtain ⟨behind, split⟩ := starts
            have whole := congrArg List.length split
            have longer := List.length_pos_iff.mpr proper
            rw [List.length_append, List.length_cons] at whole
            rw [← split]
            exact here behind (ih behind.length (by omega) behind rfl)
          · exact other c rest starts (ih rest.length (by omega) rest rfl)

theorem replace_self (pattern text : List Char) (proper : pattern ≠ []) :
    replace pattern pattern 0 text = text := by
  induction text using searched pattern proper with
  | nil => rfl
  | here rest ih => rw [replace_here pattern pattern rest proper, ih]
  | other c rest differs ih => rw [replace_other pattern pattern rest c differs, ih]

theorem replace_absent (pattern arg text : List Char) (absent : ¬ pattern <:+: text) :
    replace pattern arg 0 text = text := by
  induction text with
  | nil => rfl
  | cons c rest ih =>
      rw [replace_other, ih]
      · exact fun inside => absent (List.infix_cons inside)
      · exact fun starts => absent starts.isInfix

/-- No occurrence runs over a character that it can only begin with. -/
theorem replace_append (pattern arg front behind : List Char) (proper : pattern ≠ [])
    (apart : ∀ c ∈ behind.head?, c ∉ pattern.tail) :
    replace pattern arg 0 (front ++ behind) =
      replace pattern arg 0 front ++ replace pattern arg 0 behind := by
  induction front using searched pattern proper with
  | nil => rfl
  | here rest ih =>
      rw [List.append_assoc, replace_here _ _ _ proper, replace_here _ _ _ proper, ih,
        List.append_assoc]
  | other c rest differs ih =>
      rw [List.cons_append, replace_other, replace_other _ _ _ _ differs, ih, List.cons_append]
      intro starts
      rcases List.prefix_or_prefix_of_prefix starts (List.prefix_append (c :: rest) behind) with
        inside | past
      · exact differs inside
      · obtain ⟨remaining, split⟩ := past
        cases remaining with
        | nil => exact differs (by simp [← split])
        | cons next remaining =>
            obtain ⟨beyond, whole⟩ := starts
            have follows : next ∈ behind.head? := by
              rw [← split, List.append_assoc] at whole
              rw [← List.append_cancel_left whole]
              rfl
            apply apart next follows
            rw [← split]
            simp

theorem count_replace_le (pattern arg text : List Char) (c : Char) (proper : pattern ≠ [])
    (outside : c ∉ pattern) : text.count c ≤ (replace pattern arg 0 text).count c := by
  induction text using searched pattern proper with
  | nil => exact Nat.le_refl _
  | here rest ih =>
      rw [replace_here _ _ _ proper, List.count_append, List.count_append,
        List.count_eq_zero_of_not_mem outside]
      omega
  | other next rest differs ih =>
      rw [replace_other _ _ _ _ differs, List.count_cons, List.count_cons]
      omega

/-- A character that the pattern lacks and the argument has shows each replacement. -/
theorem count_replace_lt (pattern arg text : List Char) (c : Char) (proper : pattern ≠ [])
    (outside : c ∉ pattern) (brought : c ∈ arg) (occurs : pattern <:+: text) :
    text.count c < (replace pattern arg 0 text).count c := by
  obtain ⟨front, rest, splits⟩ := replace_first pattern text proper occurs
  have whole := splits pattern
  rw [replace_self _ _ proper, replace_self _ _ proper] at whole
  have kept := count_replace_le pattern arg rest c proper outside
  have one := List.count_pos_iff.mpr brought
  rw [splits arg, whole]
  simp only [List.count_append, List.count_eq_zero_of_not_mem outside]
  omega

/-- Only the pattern itself can stand in its own place. -/
theorem replace_fixed (pattern arg text : List Char) (proper : pattern ≠ []) :
    replace pattern arg 0 text = text ↔ (pattern <:+: text → arg = pattern) := by
  constructor
  · intro same occurs
    exact replace_inj pattern text arg pattern proper occurs
      (same.trans (replace_self pattern text proper).symm)
  · intro only
    by_cases occurs : pattern <:+: text
    · rw [only occurs, replace_self pattern text proper]
    · exact replace_absent pattern arg text occurs

def sign (c : Char) : Bool :=
  c == '\x7b' || c == '\x7d' || c.isDigit

theorem hole_ne_nil (number : Nat) : hole number ≠ [] := by
  simp [hole]

theorem digit_of_hole (number : Nat) (c : Char) (digit : c ∈ Nat.toDigits 10 number) :
    c.isDigit = true :=
  Nat.isDigit_of_mem_toDigits (by decide) (by decide) digit

theorem sign_of_hole (number : Nat) (c : Char) (inside : c ∈ hole number) : sign c = true := by
  simp only [hole, List.mem_append, List.mem_cons, List.not_mem_nil, or_false] at inside
  rcases inside with (rfl | digit) | rfl
  · rfl
  · simp [sign, digit_of_hole number c digit]
  · rfl

theorem brace_not_digit (number : Nat) :
    '\x7b' ∉ Nat.toDigits 10 number ∧ '\x7d' ∉ Nat.toDigits 10 number := by
  constructor <;>
  · intro digit
    exact absurd (digit_of_hole number _ digit) (by decide)

theorem count_close_hole (number : Nat) : (hole number).count '\x7d' = 1 := by
  simp [hole, List.count_eq_zero_of_not_mem (brace_not_digit number).2]

theorem hole_inj (number other : Nat) (same : hole number = hole other) : number = other := by
  have digits : Nat.toDigits 10 number = Nat.toDigits 10 other := by
    simpa [hole] using same
  have values := congrArg (Nat.ofDigitChars 10 · 0) digits
  simpa [Nat.ofDigitChars_ten_toDigits] using values

/-- A hole has its braces at the ends, so no other hole is in it. -/
theorem hole_infix (number other : Nat) (inside : hole number <:+: hole other) :
    number = other := by
  have opened : '\x7b' ∉ (hole other).tail := by
    simp [hole, (brace_not_digit other).1]
  rcases List.infix_cons_iff.mp inside with starts | later
  · obtain ⟨behind, split⟩ := starts
    have whole : hole number ++ behind = hole other := split
    rcases List.eq_nil_or_concat behind with rfl | ⟨rest, last, rfl⟩
    · exact hole_inj number other (by rw [← whole, List.append_nil])
    · rw [List.concat_eq_append, ← List.append_assoc] at whole
      have same : [last] = ['\x7d'] := List.append_inj_right' whole rfl
      have closed := congrArg (List.count '\x7d') whole
      rw [same] at closed
      simp only [List.count_append, count_close_hole, List.count_singleton_self] at closed
      omega
  · exact absurd (later.subset List.mem_cons_self) opened

/-- The text in front of a character that no hole is written with is filled by itself. -/
theorem fillFrom_append (number : Nat) (args : List (List Char)) (front behind : List Char)
    (apart : ∀ c ∈ behind.head?, sign c = false) :
    fillFrom number args (front ++ behind) =
      fillFrom number args front ++ fillFrom number args behind := by
  induction args generalizing number front behind with
  | nil => rfl
  | cons arg args ih =>
      have clear : ∀ c ∈ behind.head?, c ∉ (hole number).tail := by
        intro c first inside
        have written := sign_of_hole number c (List.mem_of_mem_tail inside)
        rw [apart c first] at written
        cases written
      rw [fillFrom, replace_append _ _ _ _ (hole_ne_nil number) clear, ih]
      · rfl
      · cases behind with
        | nil => exact fun c first => absurd first (by simp [replace])
        | cons first rest =>
            have visible := apart first rfl
            rw [replace_other]
            · exact apart
            · intro starts
              have written := sign_of_hole number first
                (by obtain ⟨_, split⟩ := starts
                    rw [hole, List.cons_append] at split
                    rw [← (List.cons.inj split).1]
                    simp [hole])
              rw [visible] at written
              cases written

/-- A character that no hole begins with stays, and what is behind it is filled. -/
theorem fillFrom_cons (number : Nat) (args : List (List Char)) (c : Char) (rest : List Char)
    (visible : c ≠ '\x7b') :
    fillFrom number args (c :: rest) = c :: fillFrom number args rest := by
  induction args generalizing number rest with
  | nil => rfl
  | cons arg args ih =>
      rw [fillFrom, replace_other, ih, fillFrom]
      intro starts
      obtain ⟨_, split⟩ := starts
      exact visible (List.cons.inj split).1.symm

theorem fillFrom_literal (number : Nat) (args : List (List Char)) (text rest : List Char)
    (visible : '\x7b' ∉ text) :
    fillFrom number args (text ++ rest) = text ++ fillFrom number args rest := by
  induction text with
  | nil => rfl
  | cons c text ih =>
      rw [List.mem_cons, not_or] at visible
      rw [List.cons_append, fillFrom_cons _ _ _ _ (Ne.symm visible.1), ih visible.2,
        List.cons_append]

@[simp]
theorem fillFrom_none (number : Nat) (text : List Char) : fillFrom number [] text = text := rfl

@[simp]
theorem fillFrom_nil (number : Nat) (args : List (List Char)) : fillFrom number args [] = [] := by
  induction args generalizing number with
  | nil => rfl
  | cons arg args ih => exact ih (number + 1)

/-- What a part becomes: an argument has the holes that it brings along filled by the
arguments behind it. -/
def filled (args : List (List Char)) : Part → List Char
  | .literal text => text.toList
  | .hole number =>
      match args[number]? with
      | none => hole number
      | some arg => fillFrom (number + 1) (args.drop (number + 1)) arg

theorem fillFrom_hole (start number : Nat) (args : List (List Char)) :
    fillFrom start args (hole (start + number)) =
      match args[number]? with
      | none => hole (start + number)
      | some arg => fillFrom (start + number + 1) (args.drop (number + 1)) arg := by
  induction args generalizing start number with
  | nil => rfl
  | cons arg args ih =>
      cases number with
      | zero =>
          have here := replace_here (hole start) arg [] (hole_ne_nil start)
          rw [List.append_nil] at here
          simp [fillFrom, here, replace]
      | succ number =>
          have other : replace (hole start) arg 0 (hole (start + (number + 1))) =
              hole (start + (number + 1)) := by
            apply replace_absent
            intro inside
            have same := hole_infix _ _ inside
            omega
          have shifted : start + (number + 1) = start + 1 + number := by omega
          rw [fillFrom, other, shifted, ih]
          simp

/-- No literal begins a hole, and none continues what fills one. -/
def spaced : Template → Bool
  | [] => true
  | .literal text :: rest => !text.toList.contains '\x7b' && spaced rest
  | .hole _ :: rest => (chars rest).head?.all (fun c => !sign c) && spaced rest

theorem fillFrom_parts (template : Template) (apart : spaced template = true)
    (args : List (List Char)) :
    fillFrom 0 args template.chars = template.flatMap (filled args) := by
  induction template with
  | nil => exact fillFrom_nil 0 args
  | cons part rest ih =>
      cases part with
      | literal text =>
          simp only [spaced, Bool.and_eq_true, Bool.not_eq_true', List.contains_eq_mem,
            decide_eq_false_iff_not] at apart
          rw [chars, List.flatMap_cons, List.flatMap_cons, ← ih apart.2]
          exact fillFrom_literal 0 args text.toList _ apart.1
      | hole number =>
          simp only [spaced, Bool.and_eq_true] at apart
          have visible : ∀ c ∈ (chars rest).head?, sign c = false := by
            intro c first
            have clear := apart.1
            rw [Option.mem_def.mp first] at clear
            simpa using clear
          have single := fillFrom_hole 0 number args
          rw [Nat.zero_add] at single
          rw [chars, List.flatMap_cons, List.flatMap_cons, ← ih apart.2]
          exact (fillFrom_append 0 args _ _ visible).trans (congrArg (· ++ _) single)

end Template

namespace Message

theorem all_spaced (message : Message) (known : message ∈ all) :
    message.template.spaced = true := by
  revert message
  decide +kernel

theorem text_parts (message : Message) (apart : message.template.spaced = true)
    (args : List String) :
    (message.text args).toList =
      message.template.flatMap (Template.filled (args.map String.toList)) := by
  rw [text, Template.fill, String.toList_ofList, String.toList_ofList]
  exact Template.fillFrom_parts message.template apart _

end Message
end SymbolTable
