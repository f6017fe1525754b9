import SymbolTable.Diagnostic.Basic

/-!
What a diagnostic tells of its message and of the arguments. An argument that fills
a hole can be read off the text again if the other arguments are known: the text
splits at the first hole, and its length gives the argument's.
-/
namespace SymbolTable

namespace Template

/-- Texts from one pattern differ in length by what the arguments do. -/
theorem replace_length (pattern text : List Char) (skip : Nat) :
    ∃ kept hits, ∀ arg, (replace pattern arg skip text).length = kept + hits * arg.length := by
  induction text generalizing skip with
  | nil => exact ⟨0, 0, fun arg => by cases skip <;> simp [replace]⟩
  | cons c rest ih =>
      cases skip with
      | succ skip =>
          obtain ⟨kept, hits, lengths⟩ := ih skip
          exact ⟨kept, hits, fun arg => by simp [replace, lengths]⟩
      | zero =>
          by_cases here : pattern.isPrefixOf (c :: rest)
          · obtain ⟨kept, hits, lengths⟩ := ih (pattern.length - 1)
            refine ⟨kept, hits + 1, ?_⟩
            intro arg
            simp only [replace, here, if_true, List.length_append, lengths]
            rw [Nat.add_mul]
            omega
          · obtain ⟨kept, hits, lengths⟩ := ih 0
            refine ⟨kept + 1, hits, ?_⟩
            intro arg
            simp only [replace, here, Bool.false_eq_true, if_false, List.length_cons, lengths]
            omega

/-- The text up to the first occurrence stays as it is. -/
theorem replace_first (pattern text : List Char) (proper : pattern ≠ [])
    (occurs : pattern <:+: text) :
    ∃ front rest, ∀ arg, replace pattern arg 0 text = front ++ (arg ++ replace pattern arg 0 rest) := by
  induction text with
  | nil => exact absurd (List.infix_nil.mp occurs) proper
  | cons c rest ih =>
      by_cases here : pattern.isPrefixOf (c :: rest)
      · refine ⟨[], rest.drop (pattern.length - 1), ?_⟩
        intro arg
        simp only [replace, here, if_true, List.nil_append]
        rw [replace_drop]
      · have later : pattern <:+: rest := by
          rcases List.infix_cons_iff.mp occurs with start | inside
          · exact absurd (List.isPrefixOf_iff_prefix.mpr start) here
          · exact inside
        obtain ⟨front, behind, splits⟩ := ih later
        refine ⟨c :: front, behind, ?_⟩
        intro arg
        simp only [replace, here, splits arg]
        rfl

theorem replace_inj (pattern text left right : List Char) (proper : pattern ≠ [])
    (occurs : pattern <:+: text)
    (same : replace pattern left 0 text = replace pattern right 0 text) : left = right := by
  obtain ⟨front, rest, splits⟩ := replace_first pattern text proper occurs
  obtain ⟨kept, hits, lengths⟩ := replace_length pattern rest 0
  rw [splits, splits] at same
  -- Each further hole adds the length of the argument on both sides.
  have tails := List.append_cancel_left same
  have sizes := congrArg List.length tails
  simp only [List.length_append, lengths] at sizes
  have equal : left.length = right.length := by
    have scaled : (hits + 1) * left.length = (hits + 1) * right.length := by
      rw [Nat.add_mul, Nat.add_mul]
      omega
    exact Nat.eq_of_mul_eq_mul_left (Nat.succ_pos hits) scaled
  exact (List.append_inj tails equal).1

end Template

namespace Message

theorem inheritsFromCycle_named (name : List Char) :
    Template.replace (Template.hole 0) name 0 inheritsFromCycle.template.chars =
      "Class '".toList ++ (name ++ ("' inherits from class '".toList ++
        (Template.hole 1 ++ "', which is part of an inheritance cycle.".toList))) := by
  rfl

/-- The class at the entry of the cycle can be read off the message, whatever
the name in front of it brings along. -/
theorem inheritsFromCycle_inj (name left right : String)
    (same : text .inheritsFromCycle [name, left] = text .inheritsFromCycle [name, right]) :
    left = right := by
  simp only [text, Template.fill, String.toList_ofList, List.map_cons, List.map_nil,
    Template.fillFrom, Nat.zero_add, String.ofList_inj, inheritsFromCycle_named] at same
  -- The name may hold a hole itself, but the one behind it is there in any case.
  apply String.toList_inj.mp
  apply Template.replace_inj (Template.hole 1) _ left.toList right.toList _ _ same
  · simp [Template.hole]
  · rw [← List.append_assoc, ← List.append_assoc]
    exact ⟨_, _, List.append_assoc _ _ _⟩

end Message

def Coded (report? : Option Diagnostic) (code : Nat) : Prop :=
  ∃ report, report? = some report ∧ report.message.code = code

@[simp]
theorem coded_none (code : Nat) : ¬ Coded none code := by
  rintro ⟨_, nothing, _⟩
  cases nothing

@[simp]
theorem coded_located (span : Span) (message : Message) (args : List String) (code : Nat) :
    Coded (some (.located span message args)) code ↔ message.code = code := by
  simp [Coded, Diagnostic.located]

theorem Diagnostic.located_ne {message other : Message} (apart : message.code ≠ other.code)
    (span : Span) (args args' : List String) : located span message args ≠ located span other args' :=
  fun same => apart (congrArg (fun diagnostic => diagnostic.message.code) same)

end SymbolTable
