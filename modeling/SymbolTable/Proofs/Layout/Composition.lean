import Mathlib.Data.List.Forall2
import SymbolTable.Proofs.Layout.Skeleton
import SymbolTable.Proofs.Layout.Indent

/-!
Layouts are compositional. The writer counts how deep it is and puts all blanks of a
line in front of it at once; the same text comes from laying out each nested class on
its own and moving its lines one level to the right. The two agree as long as nothing
that is written holds a newline, so that lines begin only where the layout ends one.
-/
namespace SymbolTable

def Unbroken (text : String) : Prop :=
  '\n' ∉ text.toList

instance (text : String) : Decidable (Unbroken text) :=
  inferInstanceAs (Decidable ('\n' ∉ text.toList))

/-- The marks with blanks before the first mark of each line. The flag says whether the
next mark is one. -/
def shifted (blanks : List Char) : Bool → List Char → List Char
  | _, [] => []
  | true, mark :: rest => blanks ++ mark :: shifted blanks (mark == '\n') rest
  | false, mark :: rest => mark :: shifted blanks (mark == '\n') rest

section
variable (options : RenderOptions)

def RenderOptions.blanks : String :=
  String.ofList (List.replicate options.indentWidth.toNat ' ')

def RenderOptions.shift (text : String) : String :=
  String.ofList (shifted options.blanks.toList true text.toList)

variable (classes? : Option ClassRegistry)

def Header.supername? : Header → Option String
  | .class _ super? => classes?.bind fun registry => super?.bind registry.nameOf?
  | _ => none

/-- No name and no type in the tree holds a newline, nor does the name of a superclass. -/
inductive Entry.Unbroken : Entry → Prop where
  | leaf {declared} : SymbolTable.Unbroken declared.ty.text → SymbolTable.Unbroken declared.name →
      Unbroken (.leaf declared)
  | scope {header table} : SymbolTable.Unbroken header.name →
      (∀ ty, header.ty? = some ty → SymbolTable.Unbroken ty.text) →
      (∀ super, header.supername? classes? = some super → SymbolTable.Unbroken super) →
      (∀ binding ∈ table.bindings, Unbroken binding.2) → Unbroken (.scope header table)

def Class.head (self : Class) : String :=
  "class " ++ self.name ++ options.extendsClause classes? self.super? ++ " \x7b"

/-- What a member contributes to the layout of its class. -/
inductive Entry.Piece : Entry → String → Prop where
  /-- A field or a method is one line. -/
  | line {entry text} : entry.kind = .variable ∨ entry.kind = .method →
      entry.render = .ok (text, entry) →
      SymbolTable.Unbroken (text ++ options.memberTerminator) →
      Piece entry (options.blanks ++ text ++ options.memberTerminator ++ "\n")
  /-- A class is its own layout, shifted. -/
  | nested {inner : Class} {text} : inner.layout options classes? = .ok (text, inner) →
      Piece inner.entry (options.shift text)

/-- A layout put together from its head, a piece for each member in order, and the last
line. The class stays as it is. -/
structure Class.Composed (self : Class) (pieces : List String) : Prop where
  head : SymbolTable.Unbroken (self.head options classes?)
  members : List.Forall₂ (Entry.Piece options classes?) self.table.values pieces
  whole : self.layout options classes? =
    .ok (self.head options classes? ++ "\n" ++ String.join pieces ++ "\x7d\n", self)

end

theorem shifted_unbroken (blanks line rest : List Char) (unbroken : '\n' ∉ line) :
    shifted blanks false (line ++ '\n' :: rest) = line ++ '\n' :: shifted blanks true rest := by
  induction line with
  | nil => rfl
  | cons mark line ih =>
      rw [List.mem_cons, not_or] at unbroken
      have inside : (mark == '\n') = false := by simpa using Ne.symm unbroken.1
      rw [List.cons_append, shifted, inside, ih unbroken.2, List.cons_append]

theorem shifted_line (blanks line rest : List Char) (unbroken : '\n' ∉ line) :
    shifted blanks true (line ++ '\n' :: rest) =
      blanks ++ line ++ '\n' :: shifted blanks true rest := by
  cases line with
  | nil => simp [shifted]
  | cons mark line =>
      rw [List.mem_cons, not_or] at unbroken
      have inside : (mark == '\n') = false := by simpa using Ne.symm unbroken.1
      rw [List.cons_append, shifted, inside, shifted_unbroken blanks line rest unbroken.2]
      simp

/-- Lines without a newline are shifted one by one. -/
theorem shifted_unlines (blanks : List Char) (lines : List (List Char))
    (unbroken : ∀ line ∈ lines, '\n' ∉ line) :
    shifted blanks true (unlines lines) = unlines (lines.map (blanks ++ ·)) := by
  induction lines with
  | nil => rfl
  | cons line rest ih =>
      rw [List.forall_mem_cons] at unbroken
      rw [List.map_cons, unlines_cons, unlines_cons, shifted_line blanks line _ unbroken.1,
        ih unbroken.2]

section
variable (options : RenderOptions)

theorem RenderOptions.line_next (depth : Nat) (text : List Char) :
    options.line (depth + 1) text = options.blanks.toList ++ options.line depth text := by
  have count : options.indentWidth.toNat * (depth + 1) =
      options.indentWidth.toNat + options.indentWidth.toNat * depth := by
    rw [Nat.mul_succ, Nat.add_comm]
  rw [line, line, count, ← List.replicate_append_replicate, blanks, String.toList_ofList,
    List.append_assoc]

mutual

/-- One level deeper, each line has the blanks of one more level. -/
theorem Skeleton.lines_next (depth : Nat) : ∀ shown : Skeleton,
    shown.lines options (depth + 1) =
      (shown.lines options depth).map (options.blanks.toList ++ ·)
  | .field ty name => by
      simp only [Skeleton.lines, options.line_next depth, List.map_cons, List.map_nil]
  | .method returns name parameters => by
      simp only [Skeleton.lines, options.line_next depth, List.map_cons, List.map_nil]
  | .class name super? members => by
      have inside := linesAll_next (depth + 1) members
      simp only [Skeleton.lines, inside, options.line_next depth, List.map_cons, List.map_append,
        List.map_nil]

theorem linesAll_next (depth : Nat) : ∀ all : List Skeleton,
    linesAll options (depth + 1) all =
      (linesAll options depth all).map (options.blanks.toList ++ ·)
  | [] => rfl
  | shown :: rest => by
      rw [linesAll, linesAll, List.map_append, shown.lines_next depth, linesAll_next depth rest]

end

variable (classes? : Option ClassRegistry)

theorem declaration_unbroken (shown : String × String) (ty : Unbroken shown.1)
    (name : Unbroken shown.2) : '\n' ∉ declaration shown := by
  simp only [declaration, List.mem_append, List.mem_cons, not_or]
  exact ⟨ty, by decide, name⟩

theorem Entry.Unbroken.parameter {method : Method} (plain : method.entry.Unbroken classes?)
    (declared : Variable) (inside : declared ∈ method.parameters) :
    '\n' ∉ declaration declared.shown := by
  obtain ⟨entry, taken, leaf⟩ := List.mem_filterMap.mp inside
  obtain ⟨binding, bound, same⟩ := List.mem_map.mp (List.mem_of_mem_take taken)
  cases plain with
  | scope named returns supers nested =>
      have within := nested binding bound
      rw [same] at within
      cases within with
      | leaf ty name =>
          cases leaf
          exact declaration_unbroken declared.shown ty name
      | scope => cases leaf

theorem Entry.Unbroken.parameterList (method : Method) (plain : method.entry.Unbroken classes?) :
    '\n' ∉ SymbolTable.parameterList (method.parameters.map Variable.shown) := by
  intro inside
  rcases parameterList_mem _ _ inside with comma | blank | ⟨shown, listed, within⟩
  · exact absurd comma (by decide)
  · exact absurd blank (by decide)
  · obtain ⟨declared, member, same⟩ := List.mem_map.mp listed
    subst same
    exact plain.parameter classes? declared member within

theorem Entry.Unbroken.extending {name : String} {super? : Option ClassId} {table : Table Entry}
    (plain : (Entry.scope (.class name super?) table).Unbroken classes?) :
    '\n' ∉ SymbolTable.extending (options.superclass? classes? super?) := by
  cases plain with
  | scope named returns supers nested =>
      rw [RenderOptions.superclass?]
      split
      · cases registered : (Header.class name super?).supername? classes? with
        | none =>
            rw [Header.supername?] at registered
            rw [registered]
            exact List.not_mem_nil
        | some super =>
            have unbroken := supers super registered
            rw [Header.supername?] at registered
            rw [registered]
            simp only [SymbolTable.extending, List.mem_append, not_or]
            exact ⟨by decide, unbroken⟩
      · exact List.not_mem_nil

theorem skeletons_unbroken (depth : Nat) (bindings : List (String × Entry))
    (each : ∀ binding ∈ bindings, ∀ shown, binding.2.skeleton? options classes? = some shown →
      ∀ line ∈ shown.lines options depth, '\n' ∉ line) :
    ∀ line ∈ linesAll options depth (skeletons options classes? bindings), '\n' ∉ line := by
  induction bindings with
  | nil => simp [skeletons, linesAll]
  | cons binding rest ih =>
      intro line inside
      rw [List.forall_mem_cons] at each
      rw [skeletons, linesAll_append, List.mem_append] at inside
      rcases inside with here | behind
      · cases seen : binding.2.skeleton? options classes? with
        | none => simp [seen, linesAll] at here
        | some shown =>
            have within : line ∈ shown.lines options depth := by
              simpa [seen, linesAll] using here
            exact each.1 shown seen line within
      · exact ih each.2 line behind

variable (ended : SymbolTable.Unbroken options.memberTerminator)
include ended

theorem Entry.Unbroken.opening {entry : Entry} (plain : entry.Unbroken classes?)
    (shown : Skeleton) (seen : entry.skeleton? options classes? = some shown) :
    '\n' ∉ shown.opening options := by
  cases plain with
  | @leaf declared ty name =>
      cases seen
      simp only [Skeleton.opening, List.mem_append, not_or]
      exact ⟨declaration_unbroken (declared.ty.text, declared.name) ty name, ended⟩
  | @scope header table named returns supers nested =>
      obtain ⟨bindings, cursor⟩ := table
      cases header with
      | block label => cases seen
      | method name ty paramCount =>
          cases seen
          have first := declaration_unbroken (ty.text, name) (returns ty rfl) named
          have whole := Entry.Unbroken.scope named returns supers nested
          have list := Entry.Unbroken.parameterList classes?
            ⟨name, ty, paramCount, ⟨bindings, cursor⟩⟩ whole
          simp only [Method.skeleton, Skeleton.opening, List.mem_append, List.mem_cons, not_or]
          exact ⟨⟨first, by decide, list⟩, by decide, ended⟩
      | «class» name super? =>
          cases seen
          have whole := Entry.Unbroken.scope named returns supers nested
          have clause := whole.extending options classes?
          simp only [Skeleton.opening, List.mem_append, not_or]
          exact ⟨⟨⟨by decide, named⟩, clause⟩, by decide⟩

theorem Entry.Unbroken.first {entry : Entry} (plain : entry.Unbroken classes?) (depth : Nat)
    (shown : Skeleton) (seen : entry.skeleton? options classes? = some shown) :
    '\n' ∉ options.line depth (shown.opening options) := by
  intro broken
  exact plain.opening options classes? ended shown seen
    (options.mem_line depth _ '\n' (by decide) broken)

theorem Entry.Unbroken.lines {entry : Entry} (plain : entry.Unbroken classes?) (depth : Nat)
    (shown : Skeleton) (seen : entry.skeleton? options classes? = some shown) :
    ∀ line ∈ shown.lines options depth, '\n' ∉ line := by
  induction plain generalizing depth shown with
  | leaf ty name =>
      have first := (Entry.Unbroken.leaf ty name).first options classes? ended depth shown seen
      cases seen
      simpa [Skeleton.lines] using first
  | @scope header table named returns supers nested ih =>
      have first := (Entry.Unbroken.scope named returns supers nested).first options classes? ended
        depth shown seen
      obtain ⟨bindings, cursor⟩ := table
      cases header with
      | block label => cases seen
      | method name ty paramCount =>
          cases seen
          simpa [Skeleton.lines, Method.skeleton] using first
      | «class» name super? =>
          cases seen
          have inside := skeletons_unbroken options classes? (depth + 1) bindings
            fun binding bound => ih binding bound (depth + 1)
          have last : '\n' ∉ options.line depth ['\x7d'] := fun broken =>
            absurd (options.mem_line depth _ '\n' (by decide) broken) (by decide)
          intro line member
          simp only [Skeleton.lines, List.mem_cons, List.mem_append, List.not_mem_nil, or_false]
            at member
          rcases member with opening | within | closing
          · exact opening ▸ first
          · exact inside line within
          · exact closing ▸ last

end

section
variable (options : RenderOptions) (classes? : Option ClassRegistry)
theorem pieces_lines (bindings : List (String × Entry))
    (each : ∀ binding ∈ bindings, ∃ piece, binding.2.Piece options classes? piece ∧
      piece.toList = unlines (linesAll options 1 (binding.2.skeleton? options classes?).toList)) :
    ∃ pieces, List.Forall₂ (Entry.Piece options classes?) (bindings.map Prod.snd) pieces ∧
      (String.join pieces).toList =
        unlines (linesAll options 1 (skeletons options classes? bindings)) := by
  induction bindings with
  | nil => exact ⟨[], .nil, rfl⟩
  | cons binding rest ih =>
      rw [List.forall_mem_cons] at each
      obtain ⟨piece, made, lines⟩ := each.1
      obtain ⟨pieces, others, behind⟩ := ih each.2
      refine ⟨piece :: pieces, .cons made others, ?_⟩
      rw [skeletons, linesAll_append, unlines_append, ← lines, ← behind]
      simp [String.toList_join]

theorem Class.head_opening (self : Class) :
    (self.head options classes?).toList = (self.skeleton options classes?).opening options := by
  simp [head, skeleton, Skeleton.opening, options.extendsClause_eq]

variable (shown : options.classMembers = true)
include shown

/-- A layout that fits shows the lines of the skeleton and leaves the class as it was. -/
theorem Class.layout_fits (self : Class) (sound : self.entry.WellFormed)
    (fits : options.Fits (self.depth + 1)) :
    ∃ text, self.layout options classes? = .ok (text, self) ∧
      text.toList = unlines ((self.skeleton options classes?).lines options 0) := by
  obtain ⟨⟨text, after⟩, laid⟩ := (self.layout_indented options classes? shown).ok fits
  have lines := self.layout_lines options classes? shown after text sound laid
  have same : after = self := by
    have kept := ((Entry.wellFormed_scope _ _).mp sound).laidOut options rfl
    rw [self.layout_ok options classes? after text laid, kept]
  subst same
  exact ⟨text, laid, lines⟩

variable (ended : SymbolTable.Unbroken options.memberTerminator)
include ended

omit shown in
/-- A field or a method is the line of its text. -/
theorem Entry.piece_line (entry : Entry) (opened : Skeleton) (plain : entry.Unbroken classes?)
    (kind : entry.kind = .variable ∨ entry.kind = .method) (still : entry.exhausted = entry)
    (seen : entry.skeleton? options classes? = some opened)
    (opening : (entry.text ++ options.memberTerminator).toList = opened.opening options)
    (single : opened.lines options 1 = [options.line 1 (opened.opening options)]) :
    ∃ piece, entry.Piece options classes? piece ∧
      piece.toList = unlines (linesAll options 1 (entry.skeleton? options classes?).toList) := by
  have unbroken : SymbolTable.Unbroken (entry.text ++ options.memberTerminator) := by
    rw [SymbolTable.Unbroken, opening]
    exact plain.opening options classes? ended opened seen
  have rendered : entry.render = .ok (entry.text, entry) := by rw [entry.render_eq, still]
  refine ⟨_, .line kind rendered unbroken, ?_⟩
  rw [seen, Option.toList_some, linesAll, linesAll, List.append_nil, single, unlines_cons,
    options.line_next 0, ← opening]
  simp [RenderOptions.line, unlines]

/-- The lines that a member adds one level deep are its piece. -/
theorem Entry.piece_lines (entry : Entry) (sound : entry.WellFormed)
    (member : entry.kind.isClassMember) (plain : entry.Unbroken classes?)
    (fits : options.Fits entry.levels) :
    ∃ piece, entry.Piece options classes? piece ∧
      piece.toList = unlines (linesAll options 1 (entry.skeleton? options classes?).toList) := by
  cases entry with
  | leaf declared =>
      exact (leaf declared).piece_line options classes? ended _ plain (.inl rfl)
        (by simp [exhausted]) rfl (declared.text_opening options) rfl
  | scope header table =>
      cases header with
      | block label => cases member
      | method name returns paramCount =>
          let method : Method := ⟨name, returns, paramCount, table⟩
          exact method.entry.piece_line options classes? ended method.skeleton plain (.inr rfl)
            (by simp [exhausted, Method.entry]) rfl (method.text_opening options) rfl
      | «class» name super? =>
          let inner : Class := ⟨name, super?, table⟩
          obtain ⟨text, laid, lines⟩ := inner.layout_fits options classes? shown sound fits
          have seen : inner.entry.skeleton? options classes? =
              some (inner.skeleton options classes?) := rfl
          have unbroken := plain.lines options classes? ended 0 _ seen
          refine ⟨options.shift text, .nested laid, ?_⟩
          calc (options.shift text).toList
            _ = shifted options.blanks.toList true text.toList := String.toList_ofList
            _ = unlines (((inner.skeleton options classes?).lines options 0).map
                  (options.blanks.toList ++ ·)) := by rw [lines, shifted_unlines _ _ unbroken]
            _ = unlines ((inner.skeleton options classes?).lines options 1) := by
                rw [← Skeleton.lines_next]
            _ = unlines (linesAll options 1 (some (inner.skeleton options classes?)).toList) := by
                simp [linesAll]

/-- One class: its members are one level deep, and the pieces of those that are classes
are layouts of their own. -/
theorem Class.layout_composed (self : Class) (sound : self.entry.WellFormed)
    (plain : self.entry.Unbroken classes?) (fits : options.Fits (self.depth + 1)) :
    ∃ pieces, self.Composed options classes? pieces := by
  obtain ⟨proper, inside⟩ := (Entry.wellFormed_scope _ _).mp sound
  have within : ∀ binding ∈ self.table.bindings, binding.2.Unbroken classes? := by
    cases plain with
    | scope named returns supers nested => exact nested
  obtain ⟨pieces, members, body⟩ := pieces_lines options classes? self.table.bindings
    fun binding bound => binding.2.piece_lines options classes? shown ended (inside binding bound)
      (proper.members rfl binding bound) (within binding bound)
      (fits.less _ (Nat.le_succ_of_le (levels_le_all self.table.bindings binding bound)))
  obtain ⟨text, laid, lines⟩ := self.layout_fits options classes? shown sound fits
  refine ⟨pieces, ?_, members, ?_⟩
  · rw [SymbolTable.Unbroken, head_opening]
    exact plain.opening options classes? ended _ rfl
  · have whole : text = self.head options classes? ++ "\n" ++ String.join pieces ++ "\x7d\n" := by
      apply String.toList_inj.mp
      rw [lines, skeleton, Skeleton.lines, unlines_cons, unlines_append, ← body]
      simp [head_opening, skeleton, RenderOptions.line, unlines]
    rw [laid, whole]

end

/-- A class hands down to those in it that nothing breaks their lines or their indents. -/
theorem Class.Encloses.inherits {self inner : Class} {depth : Nat}
    (encloses : self.Encloses depth inner) (options : RenderOptions)
    (classes? : Option ClassRegistry) (sound : self.entry.WellFormed)
    (plain : self.entry.Unbroken classes?) (fits : options.Fits (self.depth + 1)) :
    inner.entry.WellFormed ∧ inner.entry.Unbroken classes? ∧ options.Fits (inner.depth + 1) := by
  induction encloses with
  | self => exact ⟨sound, plain, fits⟩
  | @inside outer middle deepest name depth bound _ ih =>
      have within : middle.entry.Unbroken classes? := by
        cases plain with
        | scope named returns supers nested => exact nested (name, middle.entry) bound
      have shallower := outer.depth_inside middle name bound
      have inside := ((Entry.wellFormed_scope _ _).mp sound).2 (name, middle.entry) bound
      exact ih inside within (fits.less _ (by omega))

/-- The layout of a class, and that of every class in it, is put together from its
members: a line for a field or a method, and for a class its own layout, shifted. -/
theorem layout_compositional (self : Class) (options : RenderOptions)
    (classes? : Option ClassRegistry) (obtained : Obtainable (.ofEntry self.entry))
    (shown : options.classMembers = true)
    (fits : options.indentWidth.toNat * (self.depth + 1) ≤ longestText)
    (plain : self.entry.Unbroken classes?) (ended : Unbroken options.memberTerminator)
    (depth : Nat) (inner : Class) (encloses : self.Encloses depth inner) :
    ∃ pieces, inner.Composed options classes? pieces := by
  obtain ⟨sound, within, less⟩ :=
    encloses.inherits options classes? obtained.wellFormed plain fits
  exact inner.layout_composed options classes? shown ended sound within less

/-- A list whose nodes extend a registered class: the pieces of the list, and those of
its nodes. -/
theorem layout_compositional_list :
    let options : RenderOptions :=
      { classMembers := true, indentWidth := 2, showSuperclass := true }
    let registry : ClassRegistry := ⟨["Base"]⟩
    let next : Entry := .leaf ⟨"next", .named "Node"⟩
    let node : Class := ⟨"Node", some ⟨0⟩, ⟨[("next", next)], none⟩⟩
    let size : Entry := .scope (.method "size" .int 0) .empty
    let list : Class := ⟨"List", none, ⟨[("node", node.entry), ("size", size)], none⟩⟩
    let text := "class List \x7b\n  class Node extends Base \x7b\n    Node next;\n  \x7d\n" ++
      "  int size();\n\x7d\n"
    (∃ pieces, list.Composed options registry pieces) ∧
      (∃ pieces, node.Composed options registry pieces) ∧
      list.layout options registry = .ok (text, list) := by
  intro options registry next node size list text
  have nextMade : Obtainable (.ofEntry next) :=
    @Obtainable.variable "next" (.named "Node") ⟨"next", .named "Node"⟩ rfl
  have sizeMade : Obtainable (.ofEntry size) :=
    @Obtainable.method "size" .int ⟨"size", .int, 0, .empty⟩ rfl
  have nodeStart : Obtainable (.ofEntry (.scope (.class "Node" none) .empty)) :=
    @Obtainable.class "Node" ⟨"Node", none, .empty⟩ rfl
  have nodeMade : Obtainable (.ofEntry node.entry) :=
    nodeStart.run [.extend ⟨0⟩, .at [] (.bind "next" next)]
      (by simp [Operation.brought?, Act.brought?, nextMade])
  have listStart : Obtainable (.ofEntry (.scope (.class "List" none) .empty)) :=
    @Obtainable.class "List" ⟨"List", none, .empty⟩ rfl
  have listMade : Obtainable (.ofEntry list.entry) :=
    listStart.run [.at [] (.bind "node" node.entry), .at [] (.bind "size" size)]
      (by simp [Operation.brought?, Act.brought?, nodeMade, sizeMade])
  have nextPlain : next.Unbroken registry := .leaf (by decide) (by decide)
  have sizePlain : size.Unbroken registry :=
    .scope (by decide) (by simp [Header.ty?]; decide) (by simp [Header.supername?])
      (by simp [Table.empty])
  have base : registry.nameOf? ⟨0⟩ = some "Base" := rfl
  have nodePlain : node.entry.Unbroken registry :=
    .scope (by decide) (by simp [Header.ty?]) (by simp [Header.supername?, node, base]; decide)
      (by simp [node, nextPlain])
  have listPlain : list.entry.Unbroken registry :=
    .scope (by decide) (by simp [Header.ty?]) (by simp [Header.supername?, list])
      (by simp [list, nodePlain, sizePlain])
  have fits : options.indentWidth.toNat * (list.depth + 1) ≤ longestText := by decide
  have bound : ("node", node.entry) ∈ list.table.bindings := List.mem_cons_self
  have nested : list.Encloses 1 node := .inside bound .self
  have outer := layout_compositional list options registry listMade rfl fits listPlain (by decide) 0
    list .self
  have inner := layout_compositional list options registry listMade rfl fits listPlain (by decide) 1
    node nested
  have laid : list.layout options registry = .ok (text, list) := by with_unfolding_all rfl
  exact ⟨outer, inner, laid⟩

end SymbolTable
