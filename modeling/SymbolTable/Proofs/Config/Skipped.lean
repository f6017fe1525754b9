import SymbolTable.Proofs.Config.Numeral
import SymbolTable.Proofs.Config.Quoted

/-!
A value that nobody wants is passed over as a whole, whatever it holds: behind it the
brackets are open that were open in front of it. So the entries of an array or an object
are passed over one after another, up to the bracket that closes them.
-/
namespace SymbolTable.Read

open Json

theorem isBlank_blank (c : Char) (blank : c ∈ [' ', '\t', '\n', '\r']) : isBlank c = true := by
  simpa [isBlank, or_assoc] using blank

theorem blanks_gap (gap text : List Char) (blank : Blanks gap) :
    blanks (gap ++ text) = blanks text :=
  List.dropWhile_append_of_pos fun c inside => isBlank_blank c (blank c inside)

theorem blanks_visible (gap : List Char) (c : Char) (text : List Char) (blank : Blanks gap)
    (visible : isBlank c = false) : blanks (gap ++ c :: text) = c :: text := by
  rw [blanks_gap gap _ blank, blanks_cons c text visible]

theorem blanks_quotes (gap : List Char) (pieces : List (List Char)) (rest : List Char)
    (blank : Blanks gap) :
    blanks (gap ++ (inQuotes pieces ++ rest)) = '"' :: (pieces.flatten ++ '"' :: rest) := by
  rw [inQuotes, List.cons_append, List.append_assoc]
  exact blanks_visible gap '"' _ blank rfl

/-- How an entry starts: with neither a blank nor what may stand behind an entry. -/
def Starts (text : List Char) : Prop :=
  ∃ c more, text = c :: more ∧ isBlank c = false ∧ c ≠ ',' ∧ c ≠ ']' ∧ c ≠ '\x7d'

theorem starts_quotes (pieces : List (List Char)) (behind : List Char) :
    Starts (inQuotes pieces ++ behind) :=
  ⟨'"', _, rfl, by decide⟩

theorem starts_digit (c : Char) (more : List Char) (decimal : c.isDigit = true) :
    Starts (c :: more) := by
  refine ⟨c, more, rfl, isBlank_digit c (isDigit_of_decimal c decimal), ?_, ?_, ?_⟩ <;>
    · rintro rfl
      cases decimal

theorem enclosed_head (opening closing : Char) (entries : List (List Char)) (text : List Char)
    (enclosed : Enclosed opening closing entries text) : ∃ more, text = opening :: more := by
  cases enclosed with
  | empty => exact ⟨_, rfl⟩
  | entries => exact ⟨_, rfl⟩

theorem starts_value (text : List Char) (form : Value text) : Starts text := by
  cases form with
  | word listed =>
      simp only [List.mem_cons, List.not_mem_nil, or_false] at listed
      rcases listed with rfl | rfl | rfl <;> exact ⟨_, _, rfl, by decide⟩
  | number form =>
      cases form with
      | @parts minus whole fraction exponent minus_form digits =>
          rcases minus_form with rfl | rfl
          · cases whole with
            | nil => exact absurd rfl digits.1.1
            | cons c more => exact starts_digit c _ (digits.1.2 c List.mem_cons_self)
          · exact ⟨'-', _, rfl, by decide⟩
  | string form =>
      obtain ⟨pieces, _, rfl⟩ := form
      exact ⟨'"', _, rfl, by decide⟩
  | array _ enclosed =>
      obtain ⟨more, rfl⟩ := enclosed_head _ _ _ _ enclosed
      exact ⟨'[', more, rfl, by decide⟩
  | object _ _ enclosed =>
      obtain ⟨more, rfl⟩ := enclosed_head _ _ _ _ enclosed
      exact ⟨'\x7b', more, rfl, by decide⟩

theorem ends_row (bracket : Bracket) (entries : List (List Char)) (text rest : List Char)
    (row : Row bracket.closing entries text) : Ends (text ++ rest) := by
  have gap : ∀ gap c more, Blanks gap → Ends (c :: more) → Ends (gap ++ c :: more) := by
    intro gap c more blank ends
    cases gap with
    | nil => exact ends
    | cons d gap => exact .inr (.inr (.inr (isBlank_blank d (blank d List.mem_cons_self))))
  cases row with
  | closed blank =>
      rw [List.append_assoc]
      apply gap _ _ _ blank
      cases bracket
      · exact .inr (.inl rfl)
      · exact .inr (.inr (.inl rfl))
  | next before _ _ =>
      rw [List.append_assoc]
      exact gap _ _ _ before (.inl rfl)

theorem word_append (letters rest : List Char) : word letters (letters ++ rest) = .ok rest := by
  induction letters with
  | nil => rfl
  | cons c letters ih => rw [List.cons_append, word, if_pos rfl, ih]

theorem skipScalar_number (text rest : List Char) (form : Number text) (ends : Ends rest) :
    skipScalar (text ++ rest) = .ok rest := by
  cases form with
  | @parts minus whole fraction exponent minus_form digits behind last =>
      have skipped := skipNumeral_parts whole fraction exponent rest digits behind last ends
      simp only [List.append_assoc]
      rcases minus_form with rfl | rfl
      · cases whole with
        | nil => exact absurd rfl digits.1.1
        | cons c more =>
            have digit := isDigit_of_decimal c (digits.1.2 c List.mem_cons_self)
            rw [List.nil_append, List.cons_append, skipScalar, if_pos digit]
            · exact skipped
            all_goals
              rintro rfl
              cases digit
      · exact skipped

def skipEntry (outer : List Bracket) (text : List Char) :
    Bracket → Except ReadError (List Char)
  | .array => skipOpen (.array :: outer) text
  | .object =>
      match skipKey text with
      | .error error => .error error
      | .ok rest => skipOpen (.object :: outer) rest

def Bracket.opening : Bracket → Char
  | .array => '['
  | .object => '\x7b'

theorem skipOpen_eq (outer : List Bracket) (text : List Char) :
    skipOpen outer text =
      match blanks text with
      | '[' :: rest =>
          match blanks rest with
          | ']' :: rest => skipClose outer rest
          | [] => .error .truncated
          | _ => skipEntry outer rest .array
      | '\x7b' :: rest =>
          match blanks rest with
          | '\x7d' :: rest => skipClose outer rest
          | [] => .error .truncated
          | _ => skipEntry outer rest .object
      | scalar =>
          match skipScalar scalar with
          | .error error => .error error
          | .ok rest => skipClose outer rest := by
  rw [skipOpen]
  split
  · rename_i found
    simp only [found]
    split <;> rename_i inside <;> simp only [inside, skipEntry]
  · rename_i found
    simp only [found]
    split <;> rename_i inside <;> simp only [inside, skipEntry]
    split <;> rename_i key <;> simp only [key]
  · split <;> rename_i passed <;> simp only [passed]

theorem skipClose_eq (bracket : Bracket) (outer : List Bracket) (text : List Char) :
    skipClose (bracket :: outer) text =
      match blanks text with
      | [] => .error .truncated
      | c :: rest =>
          if c = ',' then skipEntry outer rest bracket
          else if c = bracket.closing then skipClose outer rest
          else .error .malformed := by
  rw [skipClose]
  split
  · rename_i found
    simp only [found]
  · rename_i found
    simp only [found]
    cases bracket with
    | array => rfl
    | object =>
        simp only [skipEntry]
        congr 1
        split <;> rename_i key <;> simp only [key]

/-- No scalar starts with a bracket. -/
theorem skipOpen_scalar (outer : List Bracket) (text rest : List Char)
    (passed : skipScalar (blanks text) = .ok rest) :
    skipOpen outer text = skipClose outer rest := by
  rw [skipOpen_eq]
  split
  · rename_i found
    rw [found] at passed
    cases passed
  · rename_i found
    rw [found] at passed
    cases passed
  · simp only [passed]

theorem skipOpen_empty (bracket : Bracket) (outer : List Bracket) (text inside rest : List Char)
    (opened : blanks text = bracket.opening :: inside)
    (closed : blanks inside = bracket.closing :: rest) :
    skipOpen outer text = skipClose outer rest := by
  rw [skipOpen_eq, opened]
  cases bracket <;> simp only [Bracket.opening, closed, Bracket.closing]

theorem skipOpen_entry (bracket : Bracket) (outer : List Bracket) (text inside : List Char)
    (c : Char) (more : List Char) (opened : blanks text = bracket.opening :: inside)
    (starts : blanks inside = c :: more) (another : c ≠ bracket.closing) :
    skipOpen outer text = skipEntry outer inside bracket := by
  rw [skipOpen_eq, opened]
  cases bracket
  all_goals
    -- Only the bracket's own end would close it at once.
    simp only [Bracket.opening, starts]
    split
    · rename_i same
      cases same
      exact absurd rfl another
    · rename_i none
      cases none
    · rfl

def Passed (bracket : Bracket) (entry : List Char) : Prop :=
  Starts entry ∧ ∀ outer gap rest, Blanks gap → Ends rest →
    skipEntry outer (gap ++ (entry ++ rest)) bracket = skipClose (bracket :: outer) rest

/-- The run lemma: from what ends one entry to what ends the next, until a bracket is closed. -/
theorem skipClose_row (bracket : Bracket) (outer : List Bracket) (entries : List (List Char))
    (text rest : List Char) (passed : ∀ entry ∈ entries, Passed bracket entry)
    (row : Row bracket.closing entries text) :
    skipClose (bracket :: outer) (text ++ rest) = skipClose outer rest := by
  induction row with
  | @closed gap blank =>
      have visible : isBlank bracket.closing = false := by cases bracket <;> rfl
      have other : bracket.closing ≠ ',' := by cases bracket <;> decide
      rw [List.append_assoc, List.singleton_append, skipClose_eq,
        blanks_visible gap _ rest blank visible]
      simp only [if_neg other, if_true]
  | @next before after entry entries more blank space row ih =>
      obtain ⟨first, others⟩ := List.forall_mem_cons.mp passed
      have ends := ends_row bracket entries more rest row
      rw [List.append_assoc, List.cons_append, skipClose_eq, blanks_visible before _ _ blank rfl]
      simp only [if_true, List.append_assoc]
      rw [first.2 outer after _ space ends]
      exact ih others

theorem skipOpen_enclosed (bracket : Bracket) (outer : List Bracket) (entries : List (List Char))
    (gap text rest : List Char) (blank : Blanks gap)
    (passed : ∀ entry ∈ entries, Passed bracket entry)
    (enclosed : Enclosed bracket.opening bracket.closing entries text) :
    skipOpen outer (gap ++ (text ++ rest)) = skipClose outer rest := by
  have visible : isBlank bracket.opening = false := by cases bracket <;> rfl
  cases enclosed with
  | @empty inner space =>
      have closing : isBlank bracket.closing = false := by cases bracket <;> rfl
      have closed := blanks_visible inner bracket.closing rest space closing
      apply skipOpen_empty bracket outer _ (inner ++ bracket.closing :: rest) rest _ closed
      rw [List.cons_append, List.append_assoc]
      exact blanks_visible gap _ _ blank visible
  | @entries inner entry entries more space row =>
      obtain ⟨first, others⟩ := List.forall_mem_cons.mp passed
      obtain ⟨c, behind, rfl, shown, _, bracket_end, brace_end⟩ := first.1
      have another : c ≠ bracket.closing := by cases bracket <;> assumption
      have opened := blanks_visible gap _ (inner ++ (c :: behind ++ (more ++ rest))) blank visible
      have starts := blanks_visible inner c (behind ++ (more ++ rest)) space shown
      have ends := ends_row bracket entries more rest row
      have entered := skipOpen_entry bracket outer _ _ c _ opened starts another
      simp only [List.cons_append, List.append_assoc] at entered ⊢
      rw [entered]
      exact (first.2 outer inner _ space ends).trans
        (skipClose_row bracket outer entries more rest others row)

theorem skipKey_quoted (gap key before text : List Char) (blank : Blanks gap) (form : Quoted key)
    (space : Blanks before) : skipKey (gap ++ (key ++ (before ++ ':' :: text))) = .ok text := by
  obtain ⟨pieces, pieces_form, rfl⟩ := form
  have passed := skipQuoted_pieces pieces (before ++ ':' :: text) pieces_form
  simp only [skipKey, blanks_quotes gap pieces _ blank, passed,
    blanks_visible before ':' text space rfl]

theorem skipScalar_word (text rest : List Char)
    (listed : text ∈ ["null".toList, "true".toList, "false".toList]) :
    skipScalar (text ++ rest) = .ok rest := by
  simp only [List.mem_cons, List.not_mem_nil, or_false] at listed
  rcases listed with rfl | rfl | rfl
  · exact word_append ['u', 'l', 'l'] rest
  · exact word_append ['r', 'u', 'e'] rest
  · exact word_append ['a', 'l', 's', 'e'] rest

theorem skipScalar_quoted (text rest : List Char) (form : Quoted text) :
    skipScalar (text ++ rest) = .ok rest := by
  obtain ⟨pieces, pieces_form, rfl⟩ := form
  rw [inQuotes, List.cons_append, List.append_assoc]
  exact skipQuoted_pieces pieces rest pieces_form

theorem skipOpen_starts (text : List Char) (starts : Starts text)
    (passed : ∀ rest, Ends rest → skipScalar (text ++ rest) = .ok rest) (outer : List Bracket)
    (gap rest : List Char) (blank : Blanks gap) (ends : Ends rest) :
    skipOpen outer (gap ++ (text ++ rest)) = skipClose outer rest := by
  obtain ⟨c, more, rfl, visible, _⟩ := starts
  apply skipOpen_scalar
  rw [List.cons_append, blanks_visible gap c _ blank visible]
  exact passed rest ends

/-- Any value is passed over, to any depth. -/
theorem skipOpen_value (text : List Char) (form : Value text) :
    ∀ outer gap rest, Blanks gap → Ends rest →
      skipOpen outer (gap ++ (text ++ rest)) = skipClose outer rest := by
  -- The brackets that are open differ from one item to the items in it.
  induction form with
  | word listed =>
      apply skipOpen_starts _ (starts_value _ (.word listed))
      exact fun rest _ => skipScalar_word _ rest listed
  | number form =>
      apply skipOpen_starts _ (starts_value _ (.number form))
      exact fun rest => skipScalar_number _ rest form
  | string form =>
      apply skipOpen_starts _ (starts_value _ (.string form))
      exact fun rest _ => skipScalar_quoted _ rest form
  | array items enclosed ih =>
      intro outer gap rest blank _
      refine skipOpen_enclosed .array outer _ gap _ rest blank ?_ enclosed
      intro item inside
      exact ⟨starts_value item (items item inside), fun outer => ih item inside (.array :: outer)⟩
  | @object members text keys values enclosed ih =>
      intro outer gap rest blank _
      refine skipOpen_enclosed .object outer _ gap _ rest blank ?_ enclosed
      rw [List.forall_mem_map]
      intro member inside
      obtain ⟨⟨before, after⟩, key⟩ := keys member inside
      refine ⟨?_, ?_⟩
      · obtain ⟨pieces, _, same⟩ := key
        rw [Member.text, same]
        exact starts_quotes pieces _
      · intro outer gap rest blank ends
        have entered := skipKey_quoted gap member.key member.before
          (member.after ++ (member.value ++ rest)) blank key before
        simp only [Member.text, List.append_assoc, List.cons_append, skipEntry, entered]
        exact ih member inside (.object :: outer) member.after rest after ends

end SymbolTable.Read
