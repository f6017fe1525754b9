import SymbolTable.Proofs.Layout.Opening

/-!
A layout with members is faithful: classes that look alike have one skeleton. A text
falls into its lines in one way, since no line holds a newline; a first line says
what it declares; and where a class ends is told by the closing brace, which no first
line holds. The blanks in front of a line tell nothing.
-/
namespace SymbolTable

/-- A text falls into its lines in one way. -/
theorem unlines_inj (left right : List (List Char)) (leftUnbroken : ∀ line ∈ left, '\n' ∉ line)
    (rightUnbroken : ∀ line ∈ right, '\n' ∉ line) (same : unlines left = unlines right) :
    left = right := by
  induction left generalizing right with
  | nil =>
      cases right with
      | nil => rfl
      | cons line rest => simp [unlines] at same
  | cons line left ih =>
      cases right with
      | nil => simp [unlines] at same
      | cons other right =>
          rw [List.forall_mem_cons] at leftUnbroken rightUnbroken
          rw [unlines_cons, unlines_cons] at same
          obtain ⟨here, _, behind⟩ := split_unique ['\n'] line other _ _ '\n' '\n'
            (by simpa using leftUnbroken.1) (by simpa using rightUnbroken.1) (by simp) (by simp)
            same
          rw [here, ih right leftUnbroken.2 rightUnbroken.2 behind]

section Lines
variable (options : RenderOptions)

theorem Skeleton.lines_head (depth : Nat) (shown : Skeleton) :
    ∃ rest, shown.lines options depth = options.line depth (shown.opening options) :: rest := by
  cases shown <;> simp [lines]

theorem RenderOptions.line_inj (depth : Nat) (left right : List Char)
    (same : options.line depth left = options.line depth right) : left = right :=
  List.append_cancel_left same

/-- No other declaration has these lines, whatever lines follow. -/
def Skeleton.Unique (shown : Skeleton) : Prop :=
  ∀ (other : Skeleton) (depth : Nat) (rest behind : List (List Char)), other.Unmarked →
    shown.lines options depth ++ rest = other.lines options depth ++ behind →
      shown = other ∧ rest = behind

variable (ended : Terminator options.memberTerminator)
include ended

theorem Skeleton.Unmarked.line_unclosed {shown : Skeleton} (plain : shown.Unmarked) (depth : Nat)
    (mark : Char) (member : mark ∈ ['\n', '\x7d']) :
    mark ∉ options.line depth (shown.opening options) := by
  have visible : mark ≠ ' ' := by
    simp only [List.mem_cons, List.not_mem_nil, or_false] at member
    rcases member with rfl | rfl <;> decide
  intro inside
  exact plain.opening_unclosed options ended mark member
    (options.mem_line depth _ mark visible inside)

theorem Skeleton.Unmarked.unbroken {shown : Skeleton} (plain : shown.Unmarked) (depth : Nat) :
    ∀ line ∈ shown.lines options depth, '\n' ∉ line := by
  induction plain generalizing depth with
  | field ty name =>
      simp only [lines, List.mem_singleton, forall_eq]
      exact (field ty name).line_unclosed options ended depth '\n' (by decide)
  | method returns name parameters =>
      simp only [lines, List.mem_singleton, forall_eq]
      exact (method returns name parameters).line_unclosed options ended depth '\n' (by decide)
  | «class» name supers members ih =>
      intro line inside
      simp only [lines, linesAll_eq_flatMap, List.mem_cons, List.mem_append, List.mem_flatMap,
        List.not_mem_nil, or_false] at inside
      rcases inside with opening | ⟨member, bound, within⟩ | closing
      · rw [opening]
        exact (Unmarked.class name supers members).line_unclosed options ended depth '\n'
          (by decide)
      · exact ih member bound (depth + 1) line within
      · rw [closing]
        intro broken
        exact absurd (options.mem_line depth _ '\n' (by decide) broken) (by decide)

/-- No declaration begins with the closing brace of a class. -/
theorem Skeleton.Unmarked.lines_ne {shown : Skeleton} (plain : shown.Unmarked)
    (depth outer : Nat) (behind rest other : List (List Char)) :
    shown.lines options depth ++ behind ++ rest ≠ options.line outer ['\x7d'] :: other := by
  intro same
  obtain ⟨lines, head⟩ := shown.lines_head options depth
  rw [head] at same
  obtain ⟨first, _⟩ := List.cons.inj same
  have brace : '\x7d' ∈ options.line depth (shown.opening options) := by
    rw [first]
    simp [RenderOptions.line]
  exact plain.line_unclosed options ended depth '\x7d' (by decide) brace

/-- The members of a class end at its closing brace. -/
theorem linesAll_unique (depth outer : Nat) (left right : List Skeleton)
    (rest other : List (List Char))
    (leftPlain : ∀ member ∈ left, member.Unmarked) (rightPlain : ∀ member ∈ right, member.Unmarked)
    (each : ∀ member ∈ left, member.Unique options)
    (same : linesAll options depth left ++ options.line outer ['\x7d'] :: rest =
      linesAll options depth right ++ options.line outer ['\x7d'] :: other) :
    left = right ∧ rest = other := by
  induction left generalizing right with
  | nil =>
      cases right with
      | nil => exact ⟨rfl, (List.cons.inj same).2⟩
      | cons shown right =>
          rw [List.forall_mem_cons] at rightPlain
          exact absurd same.symm (rightPlain.1.lines_ne options ended depth outer _ _ _)
  | cons member left ih =>
      rw [List.forall_mem_cons] at leftPlain each
      cases right with
      | nil => exact absurd same (leftPlain.1.lines_ne options ended depth outer _ _ _)
      | cons shown right =>
          rw [List.forall_mem_cons] at rightPlain
          rw [linesAll, linesAll, List.append_assoc, List.append_assoc] at same
          obtain ⟨here, behind⟩ := each.1 shown depth _ _ rightPlain.1 same
          obtain ⟨members, rest⟩ := ih right leftPlain.2 rightPlain.2 each.2 behind
          exact ⟨by rw [here, members], rest⟩

theorem Skeleton.Unmarked.bare_unique {left right : Skeleton} (leftPlain : left.Unmarked)
    (rightPlain : right.Unmarked) (depth : Nat) (rest behind : List (List Char))
    (same : left.lines options depth ++ rest = right.lines options depth ++ behind) :
    left.bare = right.bare := by
  obtain ⟨_, head⟩ := left.lines_head options depth
  obtain ⟨_, other⟩ := right.lines_head options depth
  rw [head, other] at same
  exact leftPlain.opening_inj options ended rightPlain
    (options.line_inj depth _ _ (List.cons.inj same).1)

/-- By induction on the nesting: the first line tells what a declaration is, and in a
class the members are unique. -/
theorem Skeleton.Unmarked.unique {shown : Skeleton} (plain : shown.Unmarked) :
    shown.Unique options := by
  induction plain with
  | field ty name =>
      intro other depth rest behind otherPlain same
      have alike := (field ty name).bare_unique options ended otherPlain depth rest behind same
      cases other <;> cases alike
      exact ⟨rfl, List.append_cancel_left same⟩
  | method returns name parameters =>
      intro other depth rest behind otherPlain same
      have alike := (method returns name parameters).bare_unique options ended otherPlain depth
        rest behind same
      cases other <;> cases alike
      exact ⟨rfl, List.append_cancel_left same⟩
  | «class» name supers members ih =>
      intro other depth rest behind otherPlain same
      have alike := (Unmarked.class name supers members).bare_unique options ended otherPlain depth
        rest behind same
      cases otherPlain with
      | «class» name' supers' members' =>
          cases alike
          simp only [lines, List.cons_append, List.append_assoc, List.nil_append] at same
          obtain ⟨inside, rest⟩ := linesAll_unique options ended (depth + 1) depth _ _ _ _ members
            members' ih (List.cons.inj same).2
          exact ⟨by rw [inside], rest⟩
      | _ => cases alike

end Lines

/-- Under fixed options that show members and a fixed registry, two classes have the
same layout if and only if they have the same skeleton. -/
theorem layout_faithful (options : RenderOptions) (classes? : Option ClassRegistry)
    (members : options.classMembers = true) (ended : Terminator options.memberTerminator)
    (registered : ∀ registry, classes? = some registry → registry.Unmarked)
    (left right leftAfter rightAfter : Class) (leftText rightText : String)
    (leftObtained : Obtainable (.ofEntry left.entry))
    (rightObtained : Obtainable (.ofEntry right.entry))
    (leftPlain : left.entry.Unmarked) (rightPlain : right.entry.Unmarked)
    (leftLaid : left.layout options classes? = .ok (leftText, leftAfter))
    (rightLaid : right.layout options classes? = .ok (rightText, rightAfter)) :
    leftText = rightText ↔
      left.skeleton options classes? = right.skeleton options classes? := by
  have leftLines := left.layout_lines options classes? members leftAfter leftText
    leftObtained.wellFormed leftLaid
  have rightLines := right.layout_lines options classes? members rightAfter rightText
    rightObtained.wellFormed rightLaid
  have leftShown : (left.skeleton options classes?).Unmarked :=
    leftPlain.skeleton options classes? registered _ rfl
  have rightShown : (right.skeleton options classes?).Unmarked :=
    rightPlain.skeleton options classes? registered _ rfl
  constructor
  · intro same
    rw [same, rightLines] at leftLines
    have lines := unlines_inj _ _ (rightShown.unbroken options ended 0)
      (leftShown.unbroken options ended 0) leftLines
    exact (rightShown.unique options ended _ 0 [] [] leftShown (by rw [lines])).1.symm
  · intro same
    apply String.toList_inj.mp
    rw [leftLines, rightLines, same]

/-- A field of type `class` beside a nested class of the field's name, bound under
other names in a class that is half traversed; with no indentation, and a terminator
that closes a parenthesis. -/
theorem layout_faithful_aliases :
    let options : RenderOptions :=
      { classMembers := true, memberTerminator := " )", indentWidth := 0, showSuperclass := true }
    let registry : ClassRegistry := ⟨["Base"]⟩
    let field : Entry := .leaf ⟨"B", .named "class"⟩
    let nested : Entry := .scope (.class "B" none) .empty
    let left : Class := ⟨"A", some ⟨0⟩, ⟨[("B", field), ("inner", nested)], none⟩⟩
    let right : Class := ⟨"A", some ⟨0⟩, ⟨[("x", field), ("B", nested)], some 1⟩⟩
    let text := "class A extends Base \x7b\nclass B )\nclass B \x7b\n\x7d\n\x7d\n"
    left.layout options registry = .ok (text, left) ∧
      right.layout options registry = .ok (text, right) ∧
        left.skeleton options registry = right.skeleton options registry := by
  intro options registry field nested left right text
  have start : Obtainable (.ofEntry (.scope (.class "A" none) .empty)) :=
    @Obtainable.class "A" ⟨"A", none, .empty⟩ rfl
  have fieldMade : Obtainable (.ofEntry field) :=
    @Obtainable.variable "B" (.named "class") ⟨"B", .named "class"⟩ rfl
  have nestedMade : Obtainable (.ofEntry nested) := @Obtainable.class "B" ⟨"B", none, .empty⟩ rfl
  have leftObtained : Obtainable (.ofEntry left.entry) :=
    start.run [.extend ⟨0⟩, .at [] (.bind "B" field), .at [] (.bind "inner" nested)]
      (by simp [Operation.brought?, Act.brought?, fieldMade, nestedMade])
  have rightObtained : Obtainable (.ofEntry right.entry) :=
    start.run [.at [] (.bind "x" field), .at [] (.bind "B" nested), .extend ⟨0⟩, .at [] .reset,
      .at [] .next] (by simp [Operation.brought?, Act.brought?, fieldMade, nestedMade])
  have fieldPlain : field.Unmarked := .leaf (by decide) (by simp [Ty.Unmarked, Ty.base]; decide)
  have nestedPlain : nested.Unmarked := .class (by decide) (by simp [Table.empty])
  have leftPlain : left.entry.Unmarked :=
    .class (by decide) (by simp [left, fieldPlain, nestedPlain])
  have rightPlain : right.entry.Unmarked :=
    .class (by decide) (by simp [right, fieldPlain, nestedPlain])
  have leftLaid : left.layout options registry = .ok (text, left) := by
    with_unfolding_all rfl
  have rightLaid : right.layout options registry = .ok (text, right) := by
    with_unfolding_all rfl
  have faithful := layout_faithful options registry rfl (by decide) (by simp [registry]; decide)
    left right left right text text leftObtained rightObtained leftPlain rightPlain leftLaid
    rightLaid
  exact ⟨leftLaid, rightLaid, faithful.mp rfl⟩

end SymbolTable
