import SymbolTable.Proofs.WellFormed

/-!
What a layout shows of a class. A skeleton has the declarations in their order,
as texts; the names they are bound under, what a method binds beside its
parameters and where the cursors stand are left out. A layout with members is
the lines of the skeleton, each with a newline behind it.
-/
namespace SymbolTable

/-- A declaration as it is shown. A parameter is the text of its type, and its name. -/
inductive Skeleton where
  | field (ty name : String)
  | method (returns name : String) (parameters : List (String × String))
  | class (name : String) (super? : Option String) (members : List Skeleton)
  deriving Repr

def Variable.shown (declared : Variable) : String × String :=
  (declared.ty.text, declared.name)

def Method.skeleton (method : Method) : Skeleton :=
  .method method.returns.text method.name (method.parameters.map Variable.shown)

section
variable (options : RenderOptions)

def RenderOptions.superclass? (classes? : Option ClassRegistry) (super? : Option ClassId) :
    Option String :=
  if options.showSuperclass then
    classes?.bind fun registry => super?.bind registry.nameOf?
  else
    none

section
variable (classes? : Option ClassRegistry)

mutual

/-- A class holds no block, and a block has no skeleton. -/
def Entry.skeleton? : Entry → Option Skeleton
  | .leaf declared => some (.field declared.ty.text declared.name)
  | .scope (.method name returns paramCount) table =>
      some (Method.skeleton ⟨name, returns, paramCount, table⟩)
  | .scope (.class name super?) ⟨bindings, _⟩ =>
      some (.class name (options.superclass? classes? super?) (skeletons bindings))
  | .scope (.block _) _ => none

def skeletons : List (String × Entry) → List Skeleton
  | [] => []
  | (_, entry) :: rest => entry.skeleton?.toList ++ skeletons rest

end

def Class.skeleton (self : Class) : Skeleton :=
  .class self.name (options.superclass? classes? self.super?)
    (skeletons options classes? self.table.bindings)

end

def declaration (shown : String × String) : List Char :=
  shown.1.toList ++ ' ' :: shown.2.toList

def parameterList (parameters : List (String × String)) : List Char :=
  [',', ' '].intercalate (parameters.map declaration)

def extending : Option String → List Char
  | some super => [' ', 'e', 'x', 't', 'e', 'n', 'd', 's', ' '] ++ super.toList
  | none => []

def Skeleton.opening : Skeleton → List Char
  | .field ty name => declaration (ty, name) ++ options.memberTerminator.toList
  | .method returns name parameters =>
      declaration (returns, name) ++ '(' :: parameterList parameters ++
        ')' :: options.memberTerminator.toList
  | .class name super? _ =>
      ['c', 'l', 'a', 's', 's', ' '] ++ name.toList ++ extending super? ++ [' ', '\x7b']

def RenderOptions.line (depth : Nat) (text : List Char) : List Char :=
  List.replicate (options.indentWidth.toNat * depth) ' ' ++ text

mutual

def Skeleton.lines (depth : Nat) : Skeleton → List (List Char)
  | .class name super? members =>
      options.line depth ((Skeleton.class name super? members).opening options) ::
        (linesAll (depth + 1) members ++ [options.line depth ['\x7d']])
  | shown => [options.line depth (shown.opening options)]

def linesAll (depth : Nat) : List Skeleton → List (List Char)
  | [] => []
  | shown :: rest => shown.lines depth ++ linesAll depth rest

end

theorem RenderOptions.mem_line (depth : Nat) (text : List Char) (mark : Char) (visible : mark ≠ ' ')
    (inside : mark ∈ options.line depth text) : mark ∈ text := by
  rcases List.mem_append.mp inside with blank | here
  · exact absurd (List.eq_of_mem_replicate blank) visible
  · exact here

theorem parameterList_mem (parameters : List (String × String)) (mark : Char)
    (inside : mark ∈ parameterList parameters) :
    mark = ',' ∨ mark = ' ' ∨ ∃ parameter ∈ parameters, mark ∈ declaration parameter := by
  induction parameters with
  | nil => cases inside
  | cons first rest ih =>
      cases rest with
      | nil =>
          have here : mark ∈ declaration first := by simpa [parameterList] using inside
          exact .inr (.inr ⟨first, List.mem_cons_self, here⟩)
      | cons second rest =>
          simp only [parameterList, List.map_cons, List.intercalate_cons_cons, List.mem_append,
            List.mem_cons, List.not_mem_nil, or_false] at inside ih
          rcases inside with (here | between) | behind
          · exact .inr (.inr ⟨first, by simp, here⟩)
          · rcases between with comma | blank
            · exact .inl comma
            · exact .inr (.inl blank)
          · rcases ih behind with comma | blank | ⟨parameter, later, within⟩
            · exact .inl comma
            · exact .inr (.inl blank)
            · exact .inr (.inr ⟨parameter, by simp [later], within⟩)

theorem linesAll_eq_flatMap (depth : Nat) (all : List Skeleton) :
    linesAll options depth all = all.flatMap (Skeleton.lines options depth) := by
  induction all with
  | nil => rfl
  | cons shown rest ih => rw [linesAll, ih, List.flatMap_cons]

theorem linesAll_append (depth : Nat) (before behind : List Skeleton) :
    linesAll options depth (before ++ behind) =
      linesAll options depth before ++ linesAll options depth behind := by
  simp only [linesAll_eq_flatMap, List.flatMap_append]

end

def unlines (lines : List (List Char)) : List Char :=
  lines.flatMap (· ++ ['\n'])

theorem unlines_append (before behind : List (List Char)) :
    unlines (before ++ behind) = unlines before ++ unlines behind :=
  List.flatMap_append

theorem unlines_cons (line : List Char) (rest : List (List Char)) :
    unlines (line :: rest) = line ++ '\n' :: unlines rest := by
  simp [unlines]

section
variable (options : RenderOptions) (classes? : Option ClassRegistry)

theorem RenderOptions.extendsClause_eq (super? : Option ClassId) :
    (options.extendsClause classes? super?).toList =
      extending (options.superclass? classes? super?) := by
  unfold extendsClause superclass?
  split
  · cases classes? with
    | none => rfl
    | some registry =>
        cases super? with
        | none => rfl
        | some super =>
            simp only [Option.bind_some]
            cases registry.nameOf? super with
            | none => rfl
            | some name => exact String.toList_append
  · rfl

/-- A line's blanks, as long as there can be so many. -/
theorem RenderOptions.line_indent (depth : Nat) (indent : String) (text : List Char)
    (blank : options.indent depth = .ok indent) :
    indent.toList ++ text = options.line depth text := by
  simp only [RenderOptions.indent] at blank
  split at blank
  · cases blank
  · split at blank
    · cases blank
    · cases blank
      simp [line]

theorem Variable.text_declaration (declared : Variable) :
    declared.text.toList = declaration declared.shown := by
  simp [Variable.text, declaration, Variable.shown]

theorem Method.signature_opening (method : Method) :
    (method.signature ++ options.memberTerminator).toList = method.skeleton.opening options := by
  have parameters : (method.parameters.map Variable.text).map String.toList =
      (method.parameters.map Variable.shown).map declaration := by
    simp [Variable.text_declaration]
  simp only [Method.signature, String.toList_append, String.toList_intercalate, parameters]
  simp [Method.skeleton, Skeleton.opening, declaration, parameterList]

theorem Variable.text_opening (declared : Variable) :
    ((Entry.leaf declared).text ++ options.memberTerminator).toList =
      (Skeleton.field declared.ty.text declared.name).opening options := by
  rw [String.toList_append, Entry.text, declared.text_declaration]
  rfl

theorem Method.text_opening (method : Method) :
    (method.entry.text ++ options.memberTerminator).toList = method.skeleton.opening options := by
  rw [entry, Entry.text, signature_opening]

theorem layoutMembers_lines (depth : Nat) (indent text : String)
    (bindings after : List (String × Entry))
    (each : ∀ binding ∈ bindings, ∀ text after,
      layoutMember options classes? depth indent binding.2 = .ok (text, after) →
        text.toList = unlines (linesAll options depth
          (binding.2.skeleton? options classes?).toList))
    (written : layoutMembers options classes? depth indent bindings = .ok (text, after)) :
    text.toList = unlines (linesAll options depth (skeletons options classes? bindings)) := by
  induction bindings generalizing text after with
  | nil =>
      cases written
      rfl
  | cons binding rest ih =>
      obtain ⟨name, entry⟩ := binding
      simp only [layoutMembers, except_bind_ok, Prod.exists] at written
      obtain ⟨first, member, atMember, others, members, atRest, finished⟩ := written
      cases finished
      have head := each (name, entry) (by simp) first member atMember
      have tail := ih others members
        (fun other inside => each other (List.mem_cons_of_mem _ inside)) atRest
      rw [skeletons, linesAll_append, unlines_append, String.toList_append, head, tail]

/-- A member that is rendered takes one line. -/
theorem layoutMember_line (entry after : Entry) (shown : Skeleton) (depth : Nat)
    (indent text : String) (other : ∀ name super? table, entry ≠ .scope (.class name super?) table)
    (blank : options.indent depth = .ok indent)
    (opening : (entry.text ++ options.memberTerminator).toList = shown.opening options)
    (written : layoutMember options classes? depth indent entry = .ok (text, after)) :
    text.toList = unlines [options.line depth (shown.opening options)] := by
  rw [layoutMember.eq_2 _ _ _ _ _ other, entry.render_eq] at written
  cases written
  have line := options.line_indent depth indent (shown.opening options) blank
  rw [unlines_cons, ← line, ← opening]
  simp [unlines]

variable (shown : options.classMembers = true)
include shown

theorem layoutTable_lines (depth : Nat) (name text : String) (super? : Option ClassId)
    (table after : Table Entry)
    (each : ∀ binding ∈ table.bindings, ∀ depth indent text after,
      options.indent depth = .ok indent →
      layoutMember options classes? depth indent binding.2 = .ok (text, after) →
        text.toList = unlines (linesAll options depth
          (binding.2.skeleton? options classes?).toList))
    (written : layoutTable options classes? depth name super? table = .ok (text, after)) :
    text.toList = unlines ((Skeleton.class name (options.superclass? classes? super?)
      (skeletons options classes? table.bindings)).lines options depth) := by
  obtain ⟨bindings, cursor⟩ := table
  simp only [layoutTable, except_bind_ok, if_pos shown, Prod.exists] at written
  obtain ⟨indent, blank, inner, deeper, body, members, laid, finished⟩ := written
  cases finished
  have within := layoutMembers_lines options classes? (depth + 1) inner body bindings members
    (fun binding inside text after => each binding inside _ inner text after deeper) laid
  have line := fun text => options.line_indent depth indent text blank
  rw [Skeleton.lines, unlines_cons, unlines_append, unlines_cons, ← line, ← line, ← within]
  simp [Skeleton.opening, unlines, options.extendsClause_eq]

/-- With its members shown, a member of a class that is laid out takes the lines of
its skeleton. -/
theorem Entry.WellFormed.layout_lines {entry : Entry} (sound : entry.WellFormed)
    (member : entry.kind.isClassMember) (depth : Nat) (indent text : String) (after : Entry)
    (blank : options.indent depth = .ok indent)
    (written : layoutMember options classes? depth indent entry = .ok (text, after)) :
    text.toList =
      unlines (linesAll options depth (entry.skeleton? options classes?).toList) := by
  induction sound generalizing depth indent text after with
  | @leaf declared named =>
      exact layoutMember_line options classes? _ after _ depth indent text (by simp) blank
        (declared.text_opening options) written
  | @scope header table proper inside ih =>
      cases header with
      | block label => cases member
      | method name returns paramCount =>
          exact layoutMember_line options classes? _ after _ depth indent text
            (by simp [Method.entry]) blank
            (Method.text_opening options ⟨name, returns, paramCount, table⟩) written
      | «class» name super? =>
          simp only [layoutMember, except_bind_ok, Prod.exists] at written
          obtain ⟨inner, laid, atTable, finished⟩ := written
          cases finished
          have lines := layoutTable_lines options classes? shown depth name text super? table laid
            (fun binding bound => ih binding bound (proper.members rfl binding bound)) atTable
          simpa [Entry.skeleton?, linesAll] using lines

/-- A layout with members is the text of the class's skeleton. -/
theorem Class.layout_lines (self after : Class) (text : String) (sound : self.entry.WellFormed)
    (written : self.layout options classes? = .ok (text, after)) :
    text.toList = unlines ((self.skeleton options classes?).lines options 0) := by
  obtain ⟨proper, inside⟩ := (Entry.wellFormed_scope _ _).mp sound
  simp only [Class.layout, except_bind_ok, Prod.exists] at written
  obtain ⟨inner, laid, atTable, finished⟩ := written
  cases finished
  exact layoutTable_lines options classes? shown 0 self.name text self.super? self.table laid
    (fun binding bound => (inside binding bound).layout_lines options classes? shown
      (proper.members rfl binding bound)) atTable

end
end SymbolTable
