import SymbolTable.Proofs.Config.Skipped

/-!
Records in any spelling. Each value is taken whole by its reader, behind any blanks, and
nothing of what ends it; a key leads to its field however it is spelled, and a key that is
not known drops its value. So the entries of a record are taken one after another, and
what they make of a state depends on the fields and the values alone.
-/
namespace SymbolTable

def Reader.Reads {Value : Type} (reader : Reader Value) (written : List Char) (value : Value) :
    Prop :=
  ∀ gap rest, Json.Blanks gap → Ends rest → reader (gap ++ (written ++ rest)) = .ok (value, rest)

namespace Read

open Json

theorem truth_reads (value : Bool) : truth.Reads (Compact.truth value) value := by
  intro gap rest blank _
  rw [truth, blanks_gap gap _ blank]
  cases value <;> rfl

theorem string_reads (text : String) (written : List Char) (spelled : Spelling text written) :
    string.Reads written text := by
  obtain ⟨pieces, spells, rfl⟩ := spelled
  intro gap rest blank _
  have taken := quoted_spelled text.toList pieces rest spells
  simp only [string, blanks_quotes gap pieces rest blank, taken, Except.map, String.ofList_toList]

theorem word64_reads (value : UInt64) : word64.Reads (Nat.toDigits 10 value.toNat) value := by
  intro gap rest blank ends
  have bare : word64 (gap ++ (Compact.word value ++ rest)) =
      word64 (Compact.word value ++ rest) := by
    rw [word64, blanks_gap gap _ blank, word64]
  exact bare.trans (word64_compact value rest ends)

/-- A field on its own takes its value into the state. -/
theorem plain_reads {State Value : Type} (key : String) (get : State → Option Value)
    (put : State → Value → State) (reader : Reader Value) (consumes : reader.Consumes)
    (state : State) (written : List Char) (value : Value) (reads : reader.Reads written value) :
    ((Field.plain key get put reader consumes).read state).Reads written (put state value) := by
  intro gap rest blank ends
  simp only [Field.plain, reads gap rest blank ends]
  rfl

/-- What is not the word for none is left to the reader. -/
theorem orNull_reads {Value : Type} (reader : Reader Value) (c : Char) (more : List Char)
    (value : Value) (visible : isBlank c = false) (other : c ≠ 'n')
    (reads : reader.Reads (c :: more) value) : (orNull reader).Reads (c :: more) (some value) := by
  intro gap rest blank ends
  have bare := reads [] rest .nil ends
  rw [List.nil_append] at bare
  rw [orNull, List.cons_append, blanks_visible gap c _ blank visible]
  split
  · rename_i same
    cases same
    exact absurd rfl other
  · rw [← List.cons_append, bare]
    rfl

section Record

variable {State : Type} (fields : List (Field State))

/-- The members without what makes their recursion end. -/
theorem members_eq (first : Bool) (state : State) (text : List Char) :
    members fields first state text =
      match nextKey first text with
      | .error error => .error error
      | .ok (.ended rest) => .ok (state, rest)
      | .ok (.another rest) =>
          match member fields state rest with
          | .error error => .error error
          | .ok (state, rest) => members fields false state rest := by
  rw [members]
  split <;> rename_i next <;> simp only [next]
  split <;> rename_i taken <;> simp only [taken]

theorem members_another (first : Bool) (state after : State) (text key rest : List Char)
    (next : nextKey first text = .ok (.another key))
    (taken : member fields state key = .ok (after, rest)) :
    members fields first state text = members fields false after rest := by
  simp only [members_eq fields first, next, taken]

theorem members_closed (first : Bool) (state : State) (gap rest : List Char)
    (blank : Blanks gap) :
    members fields first state (gap ++ '\x7d' :: rest) = .ok (state, rest) := by
  simp only [members_eq, nextKey, blanks_visible gap '\x7d' rest blank rfl]

def Takes (state : State) (entry : List Char) (after : State) : Prop :=
  ∃ inside, entry = '"' :: inside ∧
    ∀ rest, Ends rest → member fields state (inside ++ rest) = .ok (after, rest)

theorem colon_spaced (gap rest : List Char) (blank : Blanks gap) :
    colon (gap ++ ':' :: rest) = .ok rest := by
  simp only [colon, blanks_visible gap ':' rest blank rfl]

/-- However a key is spelled, it leads to its field. -/
theorem member_known (field : Field State) (state : State) (key : String)
    (pieces : List (List Char)) (gap text : List Char)
    (spells : List.Forall₂ Spells key.toList pieces)
    (listed : fields.find? (fun other => other.key == key) = some field)
    (unset : field.isSet state = false) (blank : Blanks gap) :
    member fields state (pieces.flatten ++ '"' :: (gap ++ ':' :: text)) =
      field.read state text := by
  simp only [member, quoted_spelled _ pieces _ spells, String.ofList_toList, listed, unset,
    colon_spaced gap text blank]
  rfl

theorem takes_known (field : Field State) (key : String) (written : Member) (state after : State)
    (spaced : written.Spaced) (spelled : Spelling key written.key)
    (listed : fields.find? (fun other => other.key == key) = some field)
    (unset : field.isSet state = false) (reads : (field.read state).Reads written.value after) :
    Takes fields state written.text after := by
  obtain ⟨pieces, spells, same⟩ := spelled
  refine ⟨_, by rw [Member.text, same, inQuotes, List.cons_append], ?_⟩
  intro rest ends
  have known := member_known fields field state key pieces written.before
    (written.after ++ (written.value ++ rest)) spells listed unset spaced.1
  simp only [List.append_assoc, List.cons_append, List.nil_append]
  exact known.trans (reads written.after rest spaced.2 ends)

/-- A member of no field leaves the state. -/
theorem takes_unknown (key : String) (written : Member) (state : State)
    (spaced : written.Spaced) (spelled : Spelling key written.key)
    (unknown : fields.find? (fun other => other.key == key) = none) (form : Value written.value) :
    Takes fields state written.text state := by
  obtain ⟨pieces, spells, same⟩ := spelled
  refine ⟨_, by rw [Member.text, same, inQuotes, List.cons_append], ?_⟩
  intro rest ends
  have passed := skipOpen_value written.value form [] written.after rest spaced.2 ends
  rw [skipClose] at passed
  simp only [List.append_assoc, List.cons_append, List.nil_append, member,
    quoted_spelled _ pieces _ spells, String.ofList_toList, unknown,
    colon_spaced _ _ spaced.1, skipValue, passed]
  rfl

/-- The step lemma: a member is taken behind a front that leads to its key. -/
theorem members_takes (first : Bool) (state after : State) (front entry rest : List Char)
    (next : ∀ text, nextKey first (front ++ '"' :: text) = .ok (.another text))
    (takes : Takes fields state entry after) (ends : Ends rest) :
    members fields first state (front ++ (entry ++ rest)) = members fields false after rest := by
  obtain ⟨inside, rfl, taken⟩ := takes
  exact members_another fields first state after _ _ rest (next (inside ++ rest)) (taken rest ends)

/-- What members in a row make of a state. -/
inductive Gathers : State → List (List Char) → State → Prop where
  | none (state) : Gathers state [] state
  | entry {state after last entry entries} : Takes fields state entry after →
      Gathers after entries last → Gathers state (entry :: entries) last

/-- The run lemma: members are taken one after another. -/
theorem members_row (state last : State) (entries : List (List Char)) (text rest : List Char)
    (gathers : Gathers fields state entries last) (row : Row '\x7d' entries text) :
    members fields false state (text ++ rest) = .ok (last, rest) := by
  induction row generalizing state with
  | closed blank =>
      cases gathers
      rw [List.append_assoc]
      exact members_closed fields false _ _ rest blank
  | @next before space entry entries more blank spaced row ih =>
      cases gathers with
      | @entry _ after _ _ _ takes gathers =>
          have comma : ∀ text, nextKey false (before ++ ',' :: space ++ '"' :: text) =
              .ok (.another text) := by
            intro text
            have quote := blanks_visible space '"' text spaced rfl
            rw [List.append_assoc, List.cons_append]
            simp [nextKey, blanks_visible before ',' _ blank rfl, quote]
          have step := members_takes fields false state after _ entry (more ++ rest) comma takes
            (ends_row .object entries more rest row)
          simp only [List.append_assoc, List.cons_append] at step ⊢
          rw [step]
          exact ih after gathers

theorem members_enclosed (state last : State) (entries : List (List Char))
    (inside rest : List Char) (gathers : Gathers fields state entries last)
    (enclosed : Enclosed '\x7b' '\x7d' entries ('\x7b' :: inside)) :
    members fields true state (inside ++ rest) = .ok (last, rest) := by
  cases enclosed with
  | empty space =>
      cases gathers
      rw [List.append_assoc]
      exact members_closed fields true _ _ rest space
  | @entries space entry entries more spaced row =>
      cases gathers with
      | @entry _ after _ _ _ takes gathers =>
          have quote : ∀ text, nextKey true (space ++ '"' :: text) = .ok (.another text) := by
            intro text
            simp [nextKey, blanks_visible space '"' text spaced rfl]
          have step := members_takes fields true state after space entry (more ++ rest) quote
            takes (ends_row .object entries more rest row)
          rw [List.append_assoc, List.append_assoc, step]
          exact members_row fields after last entries more rest gathers row

theorem record_object (shape : Record State) (state last : State) (entries : List (List Char))
    (text : List Char) (gathers : Gathers shape.fields state entries last)
    (enclosed : Enclosed '\x7b' '\x7d' entries text) : (record shape state).Reads text last := by
  intro gap rest blank _
  obtain ⟨inside, rfl⟩ := enclosed_head _ _ _ _ enclosed
  simp only [record, List.cons_append, blanks_visible gap '\x7b' _ blank rfl]
  exact members_enclosed shape.fields state last entries inside rest gathers enclosed

theorem items_another (early first : Bool) (field : Field State) (state after : State)
    (text value rest : List Char) (next : nextItem first text = .ok (.another value))
    (taken : field.read state value = .ok (after, rest)) :
    items early first (field :: fields) state text = items early false fields after rest := by
  simp only [items, next, taken]

theorem items_closed (early first : Bool) (state : State) (gap rest : List Char)
    (blank : Blanks gap) (all : fields ≠ [] → early = true) :
    items early first fields state (gap ++ ']' :: rest) = .ok (state, rest) := by
  have found := blanks_visible gap ']' rest blank rfl
  cases fields with
  | nil => simp only [items, found]
  | cons field fields => simp only [items, nextItem, found, all (List.cons_ne_nil _ _), if_true]

inductive Fills (early : Bool) : List (Field State) → State → List (List Char) → State → Prop where
  | all (state) {fields} : (fields ≠ [] → early = true) → Fills early fields state [] state
  | value {field fields state value after values last} : Starts value →
      (field.read state).Reads value after → Fills early fields after values last →
      Fills early (field :: fields) state (value :: values) last

theorem items_row (early : Bool) (state last : State) (values : List (List Char))
    (text rest : List Char) (fills : Fills early fields state values last)
    (row : Row ']' values text) :
    items early false fields state (text ++ rest) = .ok (last, rest) := by
  induction row generalizing fields state with
  | closed blank =>
      cases fills with
      | all _ all =>
          rw [List.append_assoc]
          exact items_closed fields early false _ _ rest blank all
  | @next before space value values more blank spaced row ih =>
      cases fills with
      | @value field fields _ _ after _ _ starts reads fills =>
          obtain ⟨c, inside, rfl, visible, _, bracket, _⟩ := starts
          have ends := ends_row .array values more rest row
          have next : nextItem false (before ++ ',' :: (space ++ (c :: inside ++ (more ++ rest)))) =
              .ok (.another (space ++ (c :: inside ++ (more ++ rest)))) := by
            have item := blanks_visible space c (inside ++ (more ++ rest)) spaced visible
            simp [nextItem, blanks_visible before ',' _ blank rfl, item, bracket]
          have step := items_another fields early false field state after _ _ (more ++ rest) next
            (reads space _ spaced ends)
          simp only [List.append_assoc, List.cons_append] at step ⊢
          rw [step]
          exact ih fields after fills

theorem items_enclosed (early : Bool) (state last : State) (values : List (List Char))
    (inside rest : List Char) (fills : Fills early fields state values last)
    (enclosed : Enclosed '[' ']' values ('[' :: inside)) :
    items early true fields state (inside ++ rest) = .ok (last, rest) := by
  cases enclosed with
  | empty space =>
      cases fills with
      | all _ all =>
          rw [List.append_assoc]
          exact items_closed fields early true _ _ rest space all
  | @entries space value values more spaced row =>
      cases fills with
      | @value field fields _ _ after _ _ starts reads fills =>
          obtain ⟨c, value, rfl, visible, comma, bracket, _⟩ := starts
          have next : nextItem true (space ++ (c :: value ++ (more ++ rest))) =
              .ok (.another (c :: value ++ (more ++ rest))) := by
            have item := blanks_visible space c (value ++ (more ++ rest)) spaced visible
            simp [nextItem, item, comma]
          have taken := reads [] _ .nil (ends_row .array values more rest row)
          have step := items_another fields early true field state after _ _ _ next taken
          simp only [List.append_assoc, List.cons_append] at step ⊢
          rw [step]
          exact items_row fields early after last values more rest fills row

theorem record_array (shape : Record State) (state last : State) (values : List (List Char))
    (text : List Char) (fills : Fills shape.mayEndEarly shape.fields state values last)
    (enclosed : Enclosed '[' ']' values text) : (record shape state).Reads text last := by
  intro gap rest blank _
  obtain ⟨inside, rfl⟩ := enclosed_head _ _ _ _ enclosed
  simp only [record, List.cons_append, blanks_visible gap '[' _ blank rfl]
  exact items_enclosed shape.fields _ state last values inside rest fills enclosed

section Items

variable {Item : Type} (keys : List String) (key : Item → String)
  (Written : Item → List Char → Prop) (put : State → Item → State)

/-- The fields read items: the field of an item's key puts it into the state, and what
the other fields have set stays. -/
structure Stores : Prop where
  listed : fields.map Field.key = keys
  known : ∀ item, key item ∈ keys
  reads : ∀ field ∈ fields, ∀ item, field.key = key item → ∀ state written,
    Written item written → (field.read state).Reads written (put state item)
  keeps : ∀ field ∈ fields, ∀ item, field.key ≠ key item → ∀ state,
    field.isSet (put state item) = field.isSet state

/-- Members that give items put them into the state, whatever stands between them. A field
that is due has not been set, since no key comes twice. -/
theorem gathers_giving (stores : Stores fields keys key Written put) (state : State)
    (items : List Item) (members : List Member) (giving : Giving keys key Written items members)
    (distinct : (items.map key).Nodup)
    (unset : ∀ field ∈ fields, field.key ∈ items.map key → field.isSet state = false) :
    Gathers fields state (members.map Member.text) (items.foldl put state) := by
  induction giving generalizing state with
  | none => exact .none state
  | @given item items written members spaced spelled value giving ih =>
      obtain ⟨new, distinct⟩ := List.nodup_cons.mp distinct
      have due := stores.known item
      rw [← stores.listed, List.mem_map] at due
      cases found : fields.find? fun other => other.key == key item with
      | none =>
          obtain ⟨field, inside, same⟩ := due
          exact absurd (beq_iff_eq.mpr same) (List.find?_eq_none.mp found field inside)
      | some field =>
          have inside := List.mem_of_find?_eq_some found
          have same : field.key = key item := by simpa using List.find?_some found
          have free := unset field inside (same ▸ List.mem_cons_self)
          have reads := stores.reads field inside item same state written.value value
          refine .entry (takes_known fields field (key item) written state _ spaced spelled found
            free reads) (ih (put state item) distinct ?_)
          -- The fields of the keys to come are others than this one.
          intro other inside later
          rw [stores.keeps other inside item (fun same => new (same ▸ later)) state]
          exact unset other inside (List.mem_cons_of_mem _ later)
  | @unknown name items written members strange spaced spelled value giving ih =>
      have unknown : fields.find? (fun other => other.key == name) = none := by
        rw [← stores.listed] at strange
        refine List.find?_eq_none.mpr fun field inside same => strange ?_
        exact List.mem_map.mpr ⟨field, inside, beq_iff_eq.mp same⟩
      exact .entry (takes_unknown fields name written state spaced spelled unknown value)
        (ih state distinct unset)

/-- The values of the first fields put their items into the state. -/
theorem fills_items (early : Bool) (state : State) (items : List Item)
    (values : List (List Char)) (written : List.Forall₂ Written items values)
    (starts : ∀ item written, Written item written → Starts written)
    (reads : ∀ field ∈ fields, ∀ item, field.key = key item → ∀ state written,
      Written item written → (field.read state).Reads written (put state item))
    (front : items.map key <+: fields.map Field.key)
    (whole : early = true ∨ items.length = fields.length) :
    Fills early fields state values (items.foldl put state) := by
  induction written generalizing fields state with
  | nil =>
      refine .all state fun more => whole.resolve_right fun none => more ?_
      exact List.length_eq_zero_iff.mp none.symm
  | @cons item value items values first _ ih =>
      cases fields with
      | nil => exact absurd front.length_le (Nat.not_succ_le_zero _)
      | cons field fields =>
          obtain ⟨same, front⟩ := List.cons_prefix_cons.mp front
          obtain ⟨read, others⟩ := List.forall_mem_cons.mp reads
          refine .value (starts item value first) (read item same.symm state value first) ?_
          exact ih fields _ others front (whole.imp_right Nat.succ.inj)

end Items

end Record

end Read
end SymbolTable
