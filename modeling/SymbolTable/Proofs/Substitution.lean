import SymbolTable.Proofs.Template

/-!
Templates filled all at once. Holes are filled in turn, but where no argument and no literal
begins a hole, each hole gets what its own number names, and nothing else in the text changes.
Here holes may touch what is around them: a hole is told by its first brace, so digits and
closing braces next to it do no harm.
-/
namespace SymbolTable.Template

/-- What a part becomes when all holes are filled at once. A hole beyond the arguments stays. -/
def substituted (args : List (List Char)) : Part → List Char
  | .literal text => text.toList
  | .hole number => args[number]?.getD (hole number)

/-- A text can begin with one hole only, whatever is behind it. -/
theorem hole_starts (number other : Nat) (rest : List Char)
    (starts : hole number <+: hole other ++ rest) : number = other := by
  rcases List.prefix_or_prefix_of_prefix starts (List.prefix_append (hole other) rest) with
    inside | around
  · exact hole_infix number other inside.isInfix
  · have same := hole_infix other number around.isInfix
    exact same.symm

theorem replace_hole_literal (number : Nat) (arg text rest : List Char)
    (visible : '\x7b' ∉ text) :
    replace (hole number) arg 0 (text ++ rest) = text ++ replace (hole number) arg 0 rest :=
  fillFrom_literal number [arg] text rest visible

theorem replace_hole_other (number other : Nat) (arg rest : List Char)
    (differs : number ≠ other) :
    replace (hole number) arg 0 (hole other ++ rest) =
      hole other ++ replace (hole number) arg 0 rest := by
  have inner : '\x7b' ∉ Nat.toDigits 10 other ++ ['\x7d'] := by
    simp [(brace_not_digit other).1]
  have opened : hole other ++ rest = '\x7b' :: (Nat.toDigits 10 other ++ ['\x7d'] ++ rest) := rfl
  have starts : ¬ hole number <+: hole other ++ rest :=
    fun starts => differs (hole_starts number other rest starts)
  rw [opened] at starts ⊢
  rw [replace_other _ _ _ _ starts, replace_hole_literal _ _ _ _ inner]
  rfl

/-- A hole gets its own argument, whichever of the holes behind it are filled before. -/
theorem fillFrom_hole_append (start number : Nat) (args : List (List Char)) (rest : List Char)
    (clear : ∀ arg ∈ args, '\x7b' ∉ arg) :
    fillFrom start args (hole (start + number) ++ rest) =
      args[number]?.getD (hole (start + number)) ++ fillFrom start args rest := by
  induction args generalizing start number rest with
  | nil => rfl
  | cons arg args ih =>
      obtain ⟨clearFirst, clearRest⟩ := List.forall_mem_cons.mp clear
      cases number with
      | zero =>
          -- The argument begins no hole, so those behind it pass it by like a literal.
          rw [Nat.add_zero, fillFrom, replace_here _ _ _ (hole_ne_nil start),
            fillFrom_literal _ _ _ _ clearFirst]
          rfl
      | succ number =>
          -- The hole is another one, and only what is behind it changes.
          have shifted : start + (number + 1) = start + 1 + number := by omega
          rw [fillFrom, replace_hole_other _ _ _ _ (by omega), shifted, ih _ _ _ clearRest]
          rfl

theorem fillFrom_substituted (template : Template) (args : List (List Char))
    (plain : ∀ text, Part.literal text ∈ template → '\x7b' ∉ text.toList)
    (clear : ∀ arg ∈ args, '\x7b' ∉ arg) :
    fillFrom 0 args template.chars = template.flatMap (substituted args) := by
  induction template with
  | nil => exact fillFrom_nil 0 args
  | cons part rest ih =>
      have later := ih fun text member => plain text (List.mem_cons_of_mem _ member)
      rw [chars, List.flatMap_cons, List.flatMap_cons, ← later]
      cases part with
      | literal text => exact fillFrom_literal 0 args _ _ (plain text List.mem_cons_self)
      | hole number =>
          have single := fillFrom_hole_append 0 number args (chars rest) clear
          rwa [Nat.zero_add] at single

/-- Where no literal and no argument begins a hole, filling the holes in turn fills them all
at once. -/
theorem fill_simultaneous (template : Template) (args : List String)
    (plain : ∀ text, Part.literal text ∈ template → '\x7b' ∉ text.toList)
    (clear : ∀ arg ∈ args, '\x7b' ∉ arg.toList) :
    fill (String.ofList template.chars) args =
      String.ofList (template.flatMap (substituted (args.map String.toList))) := by
  rw [fill, String.toList_ofList]
  apply congrArg String.ofList
  apply fillFrom_substituted template _ plain
  intro arg member
  obtain ⟨given, inside, rfl⟩ := List.mem_map.mp member
  exact clear given inside

/-- Holes next to digits and braces of the texts around them, one of them beyond the
arguments and beginning like another. -/
theorem fill_simultaneous_touching :
    let template : Template :=
      [.hole 1, .literal "0\x7d", .hole 10, .hole 0, .literal "1\x7d", .hole 1]
    let args := ["1\x7d", "0"]
    (∀ text, Part.literal text ∈ template → '\x7b' ∉ text.toList) ∧
      (∀ arg ∈ args, '\x7b' ∉ arg.toList) ∧
      fill (String.ofList template.chars) args =
        String.ofList (template.flatMap (substituted (args.map String.toList))) ∧
      fill (String.ofList template.chars) args = "00\x7d\x7b10\x7d1\x7d1\x7d0" := by
  intro template args
  have plain : ∀ text, Part.literal text ∈ template → '\x7b' ∉ text.toList := by
    simp [template]
  have clear : ∀ arg ∈ args, '\x7b' ∉ arg.toList := by decide
  exact ⟨plain, clear, fill_simultaneous template args plain clear, by decide⟩

end SymbolTable.Template
