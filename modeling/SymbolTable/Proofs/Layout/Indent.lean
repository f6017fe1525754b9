import SymbolTable.Proofs.Rendering

/-!
How far classes may be nested in a layout. The blanks in front of a line are counted
in a word of 64 bits and may be no more than the longest text holds. A level is only
entered when the blanks of the level above fit into a text, so the count of its own
blanks is at most twice as large and never leaves the word: a layout with members fails
exactly if the blanks of its deepest members do not fit.
-/
namespace SymbolTable

mutual

def Entry.levels : Entry → Nat
  | .scope (.class _ _) ⟨bindings, _⟩ => levelsAll bindings + 1
  | _ => 0

def levelsAll : List (String × Entry) → Nat
  | [] => 0
  | (_, entry) :: rest => max entry.levels (levelsAll rest)

end

def Class.depth (self : Class) : Nat :=
  levelsAll self.table.bindings

inductive Class.Encloses : Class → Nat → Class → Prop where
  | self {self} : Encloses self 0 self
  | inside {outer inner deepest : Class} {name depth} :
      (name, inner.entry) ∈ outer.table.bindings → Encloses inner depth deepest →
      Encloses outer (depth + 1) deepest

theorem levels_le_all (bindings : List (String × Entry)) (binding : String × Entry)
    (bound : binding ∈ bindings) : binding.2.levels ≤ levelsAll bindings := by
  induction bindings with
  | nil => cases bound
  | cons first rest ih =>
      rw [levelsAll]
      rcases List.mem_cons.mp bound with here | behind
      · rw [here]
        exact Nat.le_max_left _ _
      · exact Nat.le_trans (ih behind) (Nat.le_max_right _ _)

/-- The deepest nesting is that of one of the bindings. -/
theorem levelsAll_reached (bindings : List (String × Entry)) (nested : 0 < levelsAll bindings) :
    ∃ binding ∈ bindings, binding.2.levels = levelsAll bindings := by
  induction bindings with
  | nil => cases nested
  | cons first rest ih =>
      rw [levelsAll] at nested ⊢
      by_cases more : first.2.levels ≤ levelsAll rest
      · rw [Nat.max_eq_right more] at nested ⊢
        obtain ⟨binding, bound, same⟩ := ih nested
        exact ⟨binding, List.mem_cons_of_mem _ bound, same⟩
      · exact ⟨first, List.mem_cons_self, (Nat.max_eq_left (by omega)).symm⟩

theorem Entry.class_of_levels (entry : Entry) (nested : 0 < entry.levels) :
    ∃ self : Class, entry = self.entry := by
  cases entry with
  | leaf declared => cases nested
  | scope header table =>
      cases header with
      | method name returns paramCount => cases nested
      | block label => cases nested
      | «class» name super? => exact ⟨⟨name, super?, table⟩, rfl⟩

theorem Class.depth_inside (outer inner : Class) (name : String)
    (bound : (name, inner.entry) ∈ outer.table.bindings) : inner.depth < outer.depth :=
  levels_le_all outer.table.bindings (name, inner.entry) bound

theorem Class.encloses_iff (self : Class) (depth : Nat) :
    (∃ inner, self.Encloses depth inner) ↔ depth ≤ self.depth := by
  constructor
  · rintro ⟨inner, encloses⟩
    induction encloses with
    | self => exact Nat.zero_le _
    | @inside outer inner deepest name depth bound _ ih =>
        have deeper := outer.depth_inside inner name bound
        omega
  · intro reached
    induction depth generalizing self with
    | zero => exact ⟨self, .self⟩
    | succ depth ih =>
        have nested : 0 < levelsAll self.table.bindings :=
          Nat.lt_of_lt_of_le (Nat.succ_pos depth) reached
        obtain ⟨⟨name, entry⟩, bound, deepest⟩ := levelsAll_reached self.table.bindings nested
        obtain ⟨inner, same⟩ := entry.class_of_levels (by rw [deepest]; exact nested)
        subst same
        have below : depth ≤ inner.depth := by
          have levels : inner.depth + 1 = self.depth := deepest
          omega
        obtain ⟨last, encloses⟩ := ih inner below
        exact ⟨last, .inside bound encloses⟩

section
variable (options : RenderOptions)

def RenderOptions.Fits (levels : Nat) : Prop :=
  options.indentWidth.toNat * levels ≤ longestText

/-- A result that depends on whether so many levels of blanks fit, and on nothing else. -/
structure Indented {Value : Type} (levels : Nat) (result : Except Fault Value) : Prop where
  ok : options.Fits levels → ∃ value, result = .ok value
  error : ¬ options.Fits levels → result = .error .indentTooLong

theorem RenderOptions.fits_zero : options.Fits 0 := by
  rw [Fits, Nat.mul_zero]
  exact Nat.zero_le _

theorem RenderOptions.Fits.less {options : RenderOptions} {more : Nat} (fits : options.Fits more)
    (less : Nat) (bounded : less ≤ more) : options.Fits less :=
  Nat.le_trans (Nat.mul_le_mul_left _ bounded) fits

theorem RenderOptions.fits_max (first second : Nat) :
    options.Fits (max first second) ↔ options.Fits first ∧ options.Fits second := by
  constructor
  · intro fits
    exact ⟨fits.less first (Nat.le_max_left _ _), fits.less second (Nat.le_max_right _ _)⟩
  · rintro ⟨left, right⟩
    rcases Nat.le_total first second with less | more
    · rwa [Nat.max_eq_right less]
    · rwa [Nat.max_eq_left more]

/-- Where the blanks of a level fit, those of the next one are counted in a word. -/
theorem RenderOptions.Fits.product {options : RenderOptions} {levels : Nat}
    (fits : options.Fits levels) : options.indentWidth.toNat * (levels + 1) < UInt64.size := by
  have width := options.indentWidth.toNat_lt
  rw [Fits, longestText] at fits
  cases levels with
  | zero => simpa [UInt64.size] using width
  | succ levels =>
      -- The width is no more than the blanks of the level above.
      have single : options.indentWidth.toNat ≤ options.indentWidth.toNat * (levels + 1) :=
        Nat.le_mul_of_pos_right _ (Nat.succ_pos levels)
      rw [Nat.mul_succ, UInt64.size]
      omega

theorem RenderOptions.Fits.indent_next {options : RenderOptions} {levels : Nat}
    (fits : options.Fits levels) : Indented options (levels + 1) (options.indent (levels + 1)) := by
  have product := Nat.not_le_of_lt fits.product
  constructor
  · intro next
    rw [RenderOptions.indent, if_neg product, if_neg (Nat.not_lt.mpr next)]
    exact ⟨_, rfl⟩
  · intro exceeded
    rw [RenderOptions.indent, if_neg product, if_pos (Nat.lt_of_not_le exceeded)]

theorem RenderOptions.Fits.indent_ok {options : RenderOptions} {levels : Nat}
    (fits : options.Fits levels) : ∃ blanks, options.indent levels = .ok blanks := by
  have product : ¬ UInt64.size ≤ options.indentWidth.toNat * levels := by
    have bound : options.indentWidth.toNat * levels ≤ longestText := fits
    rw [longestText] at bound
    rw [UInt64.size]
    omega
  rw [RenderOptions.indent, if_neg product, if_neg (Nat.not_lt.mpr fits)]
  exact ⟨_, rfl⟩

namespace Indented

variable {options} {First Second : Type}

theorem of_ok {levels : Nat} (fits : options.Fits levels) (value : First) :
    Indented options levels (.ok value) :=
  ⟨fun _ => ⟨value, rfl⟩, fun exceeded => absurd fits exceeded⟩

/-- The second step is only taken where the first one fits. -/
theorem bind {first second : Nat} {result : Except Fault First}
    {next : First → Except Fault Second} (here : Indented options first result)
    (behind : options.Fits first → ∀ value, Indented options second (next value)) :
    Indented options (max first second) (result >>= next) := by
  constructor
  · intro fits
    obtain ⟨left, right⟩ := (options.fits_max first second).mp fits
    obtain ⟨value, found⟩ := here.ok left
    rw [found]
    exact (behind left value).ok right
  · intro exceeded
    by_cases left : options.Fits first
    · obtain ⟨value, found⟩ := here.ok left
      rw [found]
      exact (behind left value).error fun right =>
        exceeded ((options.fits_max first second).mpr ⟨left, right⟩)
    · rw [here.error left]
      rfl

theorem map {levels : Nat} {result : Except Fault First} (here : Indented options levels result)
    (change : First → Second) :
    Indented options levels (result >>= fun value => .ok (change value)) := by
  constructor
  · intro fits
    obtain ⟨value, found⟩ := here.ok fits
    exact ⟨change value, by rw [found]; rfl⟩
  · intro exceeded
    rw [here.error exceeded]
    rfl

end Indented

variable (classes? : Option ClassRegistry)

theorem layoutMembers_indented (depth : Nat) (indent : String) (bindings : List (String × Entry))
    (fits : options.Fits depth)
    (each : ∀ binding ∈ bindings, Indented options (depth + binding.2.levels)
      (layoutMember options classes? depth indent binding.2)) :
    Indented options (depth + levelsAll bindings)
      (layoutMembers options classes? depth indent bindings) := by
  induction bindings with
  | nil => exact .of_ok fits _
  | cons binding rest ih =>
      rw [List.forall_mem_cons] at each
      have tail := ih each.2
      rw [layoutMembers, levelsAll, ← Nat.add_max_add_left]
      exact each.1.bind fun _ _ => tail.map _

/-- With members shown, a layout counts one more level than the class has. -/
theorem layoutTable_indented (shown : options.classMembers = true) (depth : Nat) (name : String)
    (super? : Option ClassId) (table : Table Entry) (fits : options.Fits depth)
    (each : ∀ binding ∈ table.bindings, ∀ depth indent, options.Fits depth →
      Indented options (depth + binding.2.levels)
        (layoutMember options classes? depth indent binding.2)) :
    Indented options (depth + 1 + levelsAll table.bindings)
      (layoutTable options classes? depth name super? table) := by
  obtain ⟨bindings, cursor⟩ := table
  obtain ⟨blanks, counted⟩ := fits.indent_ok
  have whole : max (depth + 1) (depth + 1 + levelsAll bindings) = depth + 1 + levelsAll bindings :=
    Nat.max_eq_right (Nat.le_add_right _ _)
  rw [layoutTable, counted]
  simp only [if_pos shown]
  rw [← whole]
  refine fits.indent_next.bind fun next inner => ?_
  exact (layoutMembers_indented options classes? (depth + 1) inner bindings next
    fun binding bound => each binding bound (depth + 1) inner next).map _

theorem layoutMember_indented (shown : options.classMembers = true) (entry : Entry) (depth : Nat)
    (indent : String) (fits : options.Fits depth) :
    Indented options (depth + entry.levels) (layoutMember options classes? depth indent entry) := by
  induction entry generalizing depth indent with
  | leaf declared =>
      rw [layoutMember.eq_2 _ _ _ _ _ (by simp), Entry.render_eq]
      exact .of_ok fits _
  | scope header table each =>
      cases header with
      | block label | method name returns paramCount =>
          rw [layoutMember.eq_2 _ _ _ _ _ (by simp), Entry.render_eq]
          exact .of_ok fits _
      | «class» name super? =>
          have inside := layoutTable_indented options classes? shown depth name super? table fits
            each
          have levels : depth + Entry.levels (.scope (.class name super?) table) =
              depth + 1 + levelsAll table.bindings := by
            rw [Entry.levels]
            omega
          rw [layoutMember, levels]
          exact inside.map _

theorem Class.layout_indented (self : Class) (shown : options.classMembers = true) :
    Indented options (self.depth + 1) (self.layout options classes?) := by
  have inside := layoutTable_indented options classes? shown 0 self.name self.super? self.table
    options.fits_zero fun binding _ depth indent fits =>
      layoutMember_indented options classes? shown binding.2 depth indent fits
  rw [Class.layout, Class.depth, Nat.add_comm]
  rw [Nat.zero_add] at inside
  exact inside.map _

theorem Class.layout_hidden (self : Class) (hidden : options.classMembers = false) :
    ∃ value, self.layout options classes? = .ok value := by
  obtain ⟨name, super?, ⟨bindings, cursor⟩⟩ := self
  obtain ⟨blanks, counted⟩ := options.fits_zero.indent_ok
  rw [Class.layout, layoutTable, counted]
  simp only [hidden]
  exact ⟨_, rfl⟩

end

/-- No product that counts blanks leaves its word: a layout fails if and only if members are
shown and the blanks of the members of the deepest class do not fit into a text. -/
theorem layout_fails_iff (self : Class) (options : RenderOptions)
    (classes? : Option ClassRegistry) :
    self.layout options classes? ≠ .error .indentProductTooLarge ∧
      (self.layout options classes? = .error .indentTooLong ↔ options.classMembers = true ∧
        longestText < options.indentWidth.toNat * (self.depth + 1)) ∧
      ((∃ text after, self.layout options classes? = .ok (text, after)) ↔
        options.classMembers = false ∨
          options.indentWidth.toNat * (self.depth + 1) ≤ longestText) ∧
      ∀ depth, (∃ inner, self.Encloses depth inner) ↔ depth ≤ self.depth := by
  cases shown : options.classMembers with
  | false =>
      obtain ⟨⟨text, after⟩, laidOut⟩ := self.layout_hidden options classes? shown
      rw [laidOut]
      exact ⟨by simp, by simp, by simp, self.encloses_iff⟩
  | true =>
      have indented := self.layout_indented options classes? shown
      by_cases fits : options.Fits (self.depth + 1)
      · obtain ⟨⟨text, after⟩, laidOut⟩ := indented.ok fits
        have within : options.indentWidth.toNat * (self.depth + 1) ≤ longestText := fits
        rw [laidOut]
        exact ⟨by simp, by simpa using within, by simpa using within, self.encloses_iff⟩
      · have exceeded : longestText < options.indentWidth.toNat * (self.depth + 1) :=
          Nat.lt_of_not_le fits
        rw [indented.error fits]
        exact ⟨by simp, by simp [exceeded], by simpa using exceeded, self.encloses_iff⟩

end SymbolTable
