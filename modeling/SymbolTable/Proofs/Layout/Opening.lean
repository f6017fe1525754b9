import SymbolTable.Proofs.Layout.Skeleton

/-!
The first line of a declaration says what is declared. No name holds a mark, so a
type ends at the blank behind it, and a name or a parameter list at its bracket. The
terminator may be any text without newline and braces: it is the same on all lines,
and a brace tells a class from the rest.
-/
namespace SymbolTable

/-- The characters that stand between names. -/
def marks : List Char := [' ', '\n', ',', '(', ')', '\x7b', '\x7d']

def Unmarked (text : String) : Prop :=
  ∀ mark ∈ marks, mark ∉ text.toList

instance (text : String) : Decidable (Unmarked text) :=
  List.decidableBAll (fun mark => mark ∉ text.toList) marks

def Ty.Unmarked (ty : Ty) : Prop :=
  ∀ name, ty.base = .named name → SymbolTable.Unmarked name

def ClassRegistry.Unmarked (registry : ClassRegistry) : Prop :=
  ∀ name ∈ registry.names, SymbolTable.Unmarked name

instance (registry : ClassRegistry) : Decidable registry.Unmarked :=
  List.decidableBAll SymbolTable.Unmarked registry.names

/-- No name in the tree holds a mark, whatever is bound or typed by it. -/
inductive Entry.Unmarked : Entry → Prop where
  | leaf {declared} : SymbolTable.Unmarked declared.name → declared.ty.Unmarked →
      Unmarked (.leaf declared)
  | scope {header table} : SymbolTable.Unmarked header.name →
      (∀ ty, header.ty? = some ty → ty.Unmarked) →
      (∀ binding ∈ table.bindings, Unmarked binding.2) → Unmarked (.scope header table)

inductive Skeleton.Unmarked : Skeleton → Prop where
  | field {ty name} : SymbolTable.Unmarked ty → SymbolTable.Unmarked name →
      Unmarked (.field ty name)
  | method {returns name parameters} : SymbolTable.Unmarked returns → SymbolTable.Unmarked name →
      (∀ parameter ∈ parameters, SymbolTable.Unmarked parameter.1 ∧
        SymbolTable.Unmarked parameter.2) → Unmarked (.method returns name parameters)
  | class {name super? members} : SymbolTable.Unmarked name →
      (∀ super, super? = some super → SymbolTable.Unmarked super) →
      (∀ member ∈ members, Unmarked member) → Unmarked (.class name super? members)

section Unmarked

theorem Ty.Unmarked.text {ty : Ty} (plain : ty.Unmarked) : SymbolTable.Unmarked ty.text := by
  induction ty with
  | named name => exact plain name rfl
  | array element ih =>
      have brackets : SymbolTable.Unmarked "[]" := by decide
      intro mark inside
      rw [Ty.text, String.toList_append, List.mem_append]
      rintro (within | bracket)
      · exact ih plain mark inside within
      · exact brackets mark inside bracket
  | _ => decide

theorem Entry.Unmarked.class {name : String} {super? : Option ClassId} {table : Table Entry}
    (named : SymbolTable.Unmarked name)
    (each : ∀ binding ∈ table.bindings, binding.2.Unmarked) :
    (Entry.scope (.class name super?) table).Unmarked := by
  refine .scope named ?_ each
  intro ty typed
  cases typed

theorem Entry.Unmarked.parameter {method : Method} (plain : method.entry.Unmarked)
    (declared : Variable) (inside : declared ∈ method.parameters) :
    SymbolTable.Unmarked declared.shown.1 ∧ SymbolTable.Unmarked declared.shown.2 := by
  obtain ⟨entry, taken, leaf⟩ := List.mem_filterMap.mp inside
  obtain ⟨binding, bound, same⟩ := List.mem_map.mp (List.mem_of_mem_take taken)
  cases plain with
  | scope named returns nested =>
      have within := nested binding bound
      rw [same] at within
      cases within with
      | leaf name ty =>
          cases leaf
          exact ⟨ty.text, name⟩
      | scope => cases leaf

variable (options : RenderOptions) (classes? : Option ClassRegistry)

theorem ClassRegistry.Unmarked.super
    (registered : ∀ registry, classes? = some registry → registry.Unmarked)
    (super? : Option ClassId) (name : String)
    (named : options.superclass? classes? super? = some name) : SymbolTable.Unmarked name := by
  unfold RenderOptions.superclass? at named
  split at named
  · obtain ⟨registry, given, named⟩ := Option.bind_eq_some_iff.mp named
    obtain ⟨super, _, found⟩ := Option.bind_eq_some_iff.mp named
    exact registered registry given name (List.mem_of_getElem? found)
  · cases named

theorem skeletons_unmarked (bindings : List (String × Entry))
    (each : ∀ binding ∈ bindings, ∀ shown, binding.2.skeleton? options classes? = some shown →
      shown.Unmarked) : ∀ shown ∈ skeletons options classes? bindings, shown.Unmarked := by
  induction bindings with
  | nil => simp [skeletons]
  | cons binding rest ih =>
      intro shown inside
      rw [skeletons, List.mem_append, Option.mem_toList] at inside
      rcases inside with here | behind
      · exact each binding (by simp) shown here
      · exact ih (fun other member => each other (List.mem_cons_of_mem _ member)) shown behind

theorem Entry.Unmarked.skeleton {entry : Entry} (plain : entry.Unmarked)
    (registered : ∀ registry, classes? = some registry → registry.Unmarked) (shown : Skeleton)
    (seen : entry.skeleton? options classes? = some shown) : shown.Unmarked := by
  induction plain generalizing shown with
  | leaf named ty =>
      cases seen
      exact .field ty.text named
  | @scope header table named returns nested ih =>
      obtain ⟨bindings, cursor⟩ := table
      cases header with
      | block label => cases seen
      | method name ty paramCount =>
          cases seen
          refine .method (returns ty rfl).text named ?_
          intro parameter inside
          obtain ⟨declared, member, same⟩ := List.mem_map.mp inside
          have whole : (Method.entry ⟨name, ty, paramCount, ⟨bindings, cursor⟩⟩).Unmarked :=
            .scope named returns nested
          exact same ▸ whole.parameter declared member
      | «class» name super? =>
          cases seen
          exact .class named (ClassRegistry.Unmarked.super options classes? registered super?)
            (skeletons_unmarked options classes? bindings fun binding bound =>
              ih binding bound)

end Unmarked

/-- A text falls apart at its first stop in one way. -/
theorem split_unique (stops left right rest other : List Char) (first second : Char)
    (leftFree : ∀ stop ∈ stops, stop ∉ left) (rightFree : ∀ stop ∈ stops, stop ∉ right)
    (firstStop : first ∈ stops) (secondStop : second ∈ stops)
    (same : left ++ first :: rest = right ++ second :: other) :
    left = right ∧ first = second ∧ rest = other := by
  induction left generalizing right with
  | nil =>
      cases right with
      | nil => simpa using same
      | cons char right =>
          cases same
          exact absurd List.mem_cons_self (rightFree first firstStop)
  | cons char left ih =>
      cases right with
      | nil =>
          cases same
          exact absurd List.mem_cons_self (leftFree second secondStop)
      | cons other right =>
          obtain ⟨head, tail⟩ := List.cons.inj same
          obtain ⟨front, stop, behind⟩ := ih right
            (fun stop member inside => leftFree stop member (List.mem_cons_of_mem _ inside))
            (fun stop member inside => rightFree stop member (List.mem_cons_of_mem _ inside)) tail
          exact ⟨head ▸ front ▸ rfl, stop, behind⟩

section Opening

theorem declaration_free {ty name : String} (plain : Unmarked ty ∧ Unmarked name) (mark : Char)
    (member : mark ∈ marks) (visible : mark ≠ ' ') : mark ∉ declaration (ty, name) := by
  simp [declaration, plain.1 mark member, plain.2 mark member, visible]

/-- A declaration ends at the first mark behind it. -/
theorem declaration_unique (left right : String × String) (rest other : List Char)
    (first second : Char) (leftPlain : Unmarked left.1 ∧ Unmarked left.2)
    (rightPlain : Unmarked right.1 ∧ Unmarked right.2) (firstMark : first ∈ marks)
    (secondMark : second ∈ marks)
    (same : declaration left ++ first :: rest = declaration right ++ second :: other) :
    left = right ∧ first = second ∧ rest = other := by
  simp only [declaration, List.append_assoc, List.cons_append] at same
  obtain ⟨ty, _, behind⟩ := split_unique marks _ _ _ _ ' ' ' ' leftPlain.1 rightPlain.1
    (by decide) (by decide) same
  obtain ⟨name, ends, rest⟩ := split_unique marks _ _ _ _ first second leftPlain.2 rightPlain.2
    firstMark secondMark behind
  exact ⟨Prod.ext (String.toList_inj.mp ty) (String.toList_inj.mp name), ends, rest⟩

def parameterTail (parameters : List (String × String)) (rest : List Char) : List Char :=
  parameters.flatMap (fun parameter => ',' :: ' ' :: declaration parameter) ++ ')' :: rest

theorem parameterList_cons (first : String × String) (parameters : List (String × String))
    (rest : List Char) :
    parameterList (first :: parameters) ++ ')' :: rest =
      declaration first ++ parameterTail parameters rest := by
  induction parameters generalizing first with
  | nil => simp [parameterList, parameterTail]
  | cons second parameters ih =>
      have tail := ih second
      simp only [parameterList, List.map_cons, List.intercalate_cons_cons, parameterTail,
        List.flatMap_cons, List.append_assoc, List.cons_append, List.nil_append] at tail ⊢
      rw [tail]

/-- Behind a parameter stands a mark. -/
theorem parameterTail_mark (parameters : List (String × String)) (rest : List Char) :
    ∃ stop behind, stop ∈ marks ∧ parameterTail parameters rest = stop :: behind := by
  cases parameters with
  | nil => exact ⟨')', _, by decide, rfl⟩
  | cons parameter parameters => exact ⟨',', _, by decide, rfl⟩

theorem parameterList_free (parameters : List (String × String))
    (plain : ∀ parameter ∈ parameters, Unmarked parameter.1 ∧ Unmarked parameter.2)
    (mark : Char) (member : mark ∈ marks) (visible : mark ≠ ' ') (single : mark ≠ ',') :
    mark ∉ parameterList parameters := by
  intro inside
  rcases parameterList_mem parameters mark inside with comma | blank | ⟨parameter, listed, within⟩
  · exact single comma
  · exact visible blank
  · exact declaration_free (plain parameter listed) mark member visible within

theorem declaration_tail (first second : String × String) (left right : List (String × String))
    (rest other : List Char) (firstPlain : Unmarked first.1 ∧ Unmarked first.2)
    (secondPlain : Unmarked second.1 ∧ Unmarked second.2)
    (same : declaration first ++ parameterTail left rest =
      declaration second ++ parameterTail right other) :
    first = second ∧ parameterTail left rest = parameterTail right other := by
  obtain ⟨stop, behind, mark, tail⟩ := parameterTail_mark left rest
  obtain ⟨stop', behind', mark', tail'⟩ := parameterTail_mark right other
  rw [tail, tail'] at same ⊢
  obtain ⟨here, ends, after⟩ := declaration_unique first second behind behind' stop stop' firstPlain
    secondPlain mark mark' same
  exact ⟨here, by rw [ends, after]⟩

theorem parameterTail_unique (left right : List (String × String)) (rest other : List Char)
    (leftPlain : ∀ parameter ∈ left, Unmarked parameter.1 ∧ Unmarked parameter.2)
    (rightPlain : ∀ parameter ∈ right, Unmarked parameter.1 ∧ Unmarked parameter.2)
    (same : parameterTail left rest = parameterTail right other) : left = right ∧ rest = other := by
  induction left generalizing right with
  | nil =>
      cases right with
      | nil => simpa [parameterTail] using same
      | cons second right => simp [parameterTail] at same
  | cons first left ih =>
      cases right with
      | nil => simp [parameterTail] at same
      | cons second right =>
          rw [List.forall_mem_cons] at leftPlain rightPlain
          have shorter : declaration first ++ parameterTail left rest =
              declaration second ++ parameterTail right other := by
            simpa [parameterTail] using same
          obtain ⟨here, behind⟩ := declaration_tail first second left right rest other leftPlain.1
            rightPlain.1 shorter
          obtain ⟨list, rest⟩ := ih right leftPlain.2 rightPlain.2 behind
          exact ⟨by rw [here, list], rest⟩

/-- With a parameter in it, a list begins with a type, not with its end. -/
theorem parameterList_opened (parameter : String × String) (list : List (String × String))
    (rest other : List Char) (plain : Unmarked parameter.1) :
    parameterList (parameter :: list) ++ ')' :: rest ≠ ')' :: other := by
  intro same
  rw [parameterList_cons, declaration, List.append_assoc, List.cons_append] at same
  have differ := split_unique marks _ [] _ other ' ' ')' plain (by simp) (by decide) (by decide)
    same
  exact absurd differ.2.1 (by decide)

/-- A parameter list ends at the parenthesis that closes it. -/
theorem parameterList_unique (left right : List (String × String)) (rest other : List Char)
    (leftPlain : ∀ parameter ∈ left, Unmarked parameter.1 ∧ Unmarked parameter.2)
    (rightPlain : ∀ parameter ∈ right, Unmarked parameter.1 ∧ Unmarked parameter.2)
    (same : parameterList left ++ ')' :: rest = parameterList right ++ ')' :: other) :
    left = right ∧ rest = other := by
  cases left with
  | nil =>
      cases right with
      | nil => simpa [parameterList] using same
      | cons second right =>
          exact absurd same.symm (parameterList_opened second right other rest
            (rightPlain second List.mem_cons_self).1)
  | cons first left =>
      cases right with
      | nil =>
          exact absurd same (parameterList_opened first left rest other
            (leftPlain first List.mem_cons_self).1)
      | cons second right =>
          rw [List.forall_mem_cons] at leftPlain rightPlain
          rw [parameterList_cons, parameterList_cons] at same
          obtain ⟨here, behind⟩ := declaration_tail first second left right rest other leftPlain.1
            rightPlain.1 same
          obtain ⟨list, rest⟩ := parameterTail_unique left right rest other leftPlain.2 rightPlain.2
            behind
          exact ⟨by rw [here, list], rest⟩

def Skeleton.opens : Skeleton → Bool
  | .class .. => true
  | _ => false

def Skeleton.bare : Skeleton → Skeleton
  | .class name super? _ => .class name super? []
  | shown => shown

theorem extending_free (super? : Option String)
    (plain : ∀ super, super? = some super → Unmarked super) (mark : Char) (member : mark ∈ marks)
    (visible : mark ≠ ' ') : mark ∉ extending super? := by
  cases super? with
  | none => exact List.not_mem_nil
  | some super =>
      have word : Unmarked "extends" := by decide
      have clause : mark ∉ [' ', 'e', 'x', 't', 'e', 'n', 'd', 's', ' '] := by
        simpa [visible] using word mark member
      simp only [extending, List.mem_append, not_or]
      exact ⟨clause, plain super rfl mark member⟩

theorem extending_blank (super? : Option String) :
    ∃ rest, extending super? ++ [' ', '\x7b'] = ' ' :: rest := by
  cases super? <;> simp [extending]

/-- Between the name and the brace that opens the body stands the superclass or nothing. -/
theorem extending_unique (left right : Option String)
    (same : extending left ++ [' ', '\x7b'] = extending right ++ [' ', '\x7b']) :
    left = right := by
  have cut := List.append_cancel_right same
  cases left with
  | none =>
      cases right with
      | none => rfl
      | some super => simp [extending] at cut
  | some super =>
      cases right with
      | none => simp [extending] at cut
      | some other =>
          have name := List.append_cancel_left cut
          rw [String.toList_inj.mp name]

variable (options : RenderOptions)

theorem field_opening_inj (ty ty' name name' : String) (plain : Unmarked ty ∧ Unmarked name)
    (plain' : Unmarked ty' ∧ Unmarked name')
    (same : (Skeleton.field ty name).opening options = (Skeleton.field ty' name').opening options) :
    Skeleton.field ty name = .field ty' name' := by
  have cut := List.append_cancel_right same
  have whole : declaration (ty, name) ++ ['\n'] = declaration (ty', name') ++ ['\n'] := by rw [cut]
  obtain ⟨here, _, _⟩ := declaration_unique _ _ _ _ _ _ plain plain' (by decide) (by decide) whole
  cases here
  rfl

/-- What a field declares holds no parenthesis. -/
theorem field_opening_ne (ty name returns name' : String) (parameters : List (String × String))
    (plain : Unmarked ty ∧ Unmarked name) :
    (Skeleton.field ty name).opening options ≠
      (Skeleton.method returns name' parameters).opening options := by
  intro same
  have opened : '(' ∉ declaration (ty, name) := declaration_free plain '(' (by decide) (by decide)
  have whole : declaration (ty, name) ++ options.memberTerminator.toList =
      (declaration (returns, name') ++ '(' :: parameterList parameters ++ [')']) ++
        options.memberTerminator.toList := by
    simpa [Skeleton.opening] using same
  have cut := List.append_cancel_right whole
  exact opened (by simp [cut])

theorem method_opening_inj (returns returns' name name' : String)
    (parameters parameters' : List (String × String)) (plain : Unmarked returns ∧ Unmarked name)
    (plain' : Unmarked returns' ∧ Unmarked name')
    (each : ∀ parameter ∈ parameters, Unmarked parameter.1 ∧ Unmarked parameter.2)
    (each' : ∀ parameter ∈ parameters', Unmarked parameter.1 ∧ Unmarked parameter.2)
    (same : (Skeleton.method returns name parameters).opening options =
      (Skeleton.method returns' name' parameters').opening options) :
    Skeleton.method returns name parameters = .method returns' name' parameters' := by
  simp only [Skeleton.opening, List.append_assoc, List.cons_append] at same
  obtain ⟨here, _, behind⟩ := declaration_unique _ _ _ _ _ _ plain plain' (by decide) (by decide)
    same
  obtain ⟨list, _⟩ := parameterList_unique _ _ _ _ each each' behind
  cases here
  rw [list]

theorem class_opening_inj (name name' : String) (super? super?' : Option String)
    (members members' : List Skeleton) (plain : Unmarked name) (plain' : Unmarked name')
    (same : (Skeleton.class name super? members).opening options =
      (Skeleton.class name' super?' members').opening options) :
    name = name' ∧ super? = super?' := by
  have cut : name.toList ++ (extending super? ++ [' ', '\x7b']) =
      name'.toList ++ (extending super?' ++ [' ', '\x7b']) := by
    simpa [Skeleton.opening] using same
  obtain ⟨clause, first⟩ := extending_blank super?
  obtain ⟨clause', second⟩ := extending_blank super?'
  rw [first, second] at cut
  obtain ⟨here, _, behind⟩ := split_unique marks _ _ _ _ ' ' ' ' plain plain' (by decide)
    (by decide) cut
  refine ⟨String.toList_inj.mp here, extending_unique super? super?' ?_⟩
  rw [first, second, behind]

/-- What may stand behind a field or a method: it ends no line, and no class opens or
closes in it. -/
def Terminator (text : String) : Prop :=
  ∀ mark ∈ ['\n', '\x7b', '\x7d'], mark ∉ text.toList

instance (text : String) : Decidable (Terminator text) :=
  List.decidableBAll (fun mark => mark ∉ text.toList) ['\n', '\x7b', '\x7d']

theorem line_marks (mark : Char) (member : mark ∈ ['\n', '\x7b', '\x7d']) :
    mark ∈ marks ∧ mark ≠ ' ' ∧ mark ≠ ',' ∧ mark ≠ '(' ∧ mark ≠ ')' := by
  simp only [List.mem_cons, List.not_mem_nil, or_false] at member
  rcases member with rfl | rfl | rfl <;> decide

variable (ended : Terminator options.memberTerminator)
include ended

/-- A field or a method is a line without a brace. -/
theorem Skeleton.Unmarked.opening_flat {shown : Skeleton} (plain : shown.Unmarked)
    (flat : shown.opens = false) (mark : Char) (member : mark ∈ ['\n', '\x7b', '\x7d']) :
    mark ∉ shown.opening options := by
  obtain ⟨inside, blank, comma, opened, closed⟩ := line_marks mark member
  have last := ended mark member
  cases plain with
  | field ty name =>
      have here := declaration_free ⟨ty, name⟩ mark inside blank
      simp [Skeleton.opening, here, last]
  | method returns name parameters =>
      have here := declaration_free ⟨returns, name⟩ mark inside blank
      have list := parameterList_free _ parameters mark inside blank comma
      simp [Skeleton.opening, here, list, last, opened, closed]
  | «class» => cases flat

/-- No first line holds a newline or a closing brace. -/
theorem Skeleton.Unmarked.opening_unclosed {shown : Skeleton} (plain : shown.Unmarked)
    (mark : Char) (member : mark ∈ ['\n', '\x7d']) : mark ∉ shown.opening options := by
  have fixed : mark ∈ ['\n', '\x7b', '\x7d'] ∧ mark ∉ ['c', 'l', 'a', 's', 's', ' '] ∧
      mark ∉ [' ', '\x7b'] := by
    simp only [List.mem_cons, List.not_mem_nil, or_false] at member
    rcases member with rfl | rfl <;> decide
  obtain ⟨listed, word, brace⟩ := fixed
  cases opens : shown.opens with
  | false => exact plain.opening_flat options ended opens mark listed
  | true =>
      cases plain with
      | @«class» name super? members named supers =>
          obtain ⟨inside, blank, _⟩ := line_marks mark listed
          have clause := extending_free super? supers mark inside blank
          simp only [Skeleton.opening, List.mem_append, not_or]
          exact ⟨⟨⟨word, named mark inside⟩, clause⟩, brace⟩
      | _ => cases opens

theorem Skeleton.Unmarked.opens_iff {shown : Skeleton} (plain : shown.Unmarked) :
    shown.opens = true ↔ '\x7b' ∈ shown.opening options := by
  constructor
  · intro opens
    cases plain with
    | «class» => simp [Skeleton.opening]
    | _ => cases opens
  · intro brace
    cases opens : shown.opens with
    | true => rfl
    | false => exact absurd brace (plain.opening_flat options ended opens '\x7b' (by decide))

/-- The first line says what is declared, but for the members of a class. -/
theorem Skeleton.Unmarked.opening_inj {left right : Skeleton} (leftPlain : left.Unmarked)
    (rightPlain : right.Unmarked) (same : left.opening options = right.opening options) :
    left.bare = right.bare := by
  have alike : left.opens = right.opens := by
    rw [Bool.eq_iff_iff, leftPlain.opens_iff options ended, rightPlain.opens_iff options ended,
      same]
  cases leftPlain with
  | field ty name =>
      cases rightPlain with
      | field ty' name' => exact field_opening_inj options _ _ _ _ ⟨ty, name⟩ ⟨ty', name'⟩ same
      | method => exact absurd same (field_opening_ne options _ _ _ _ _ ⟨ty, name⟩)
      | «class» => cases alike
  | method returns name parameters =>
      cases rightPlain with
      | field ty name => exact absurd same.symm (field_opening_ne options _ _ _ _ _ ⟨ty, name⟩)
      | method returns' name' parameters' =>
          exact method_opening_inj options _ _ _ _ _ _ ⟨returns, name⟩ ⟨returns', name'⟩
            parameters parameters' same
      | «class» => cases alike
  | «class» name supers members =>
      cases rightPlain with
      | «class» name' supers' members' =>
          obtain ⟨here, super⟩ := class_opening_inj options _ _ _ _ _ _ name name' same
          rw [bare, bare, here, super]
      | _ => cases alike

end Opening

end SymbolTable
