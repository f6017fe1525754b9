import SymbolTable.Config.Reader.Skip

/-!
Records. A record is written as an object, its fields in any order and mixed
with keys that mean nothing here, or as a list of the fields' values in order.
A key that comes twice is refused as soon as it has been read.
-/
namespace SymbolTable

structure Field (State : Type) where
  key : String
  isSet : State → Bool
  read : State → Reader State
  consumes : ∀ state, (read state).Consumes

structure Record (State : Type) where
  fields : List (Field State)
  /-- Whether a list of values may end before the last field. -/
  mayEndEarly : Bool

namespace Read

def orUnfitting {Value : Type} : Except ReadError Value → ReadError
  | .error error => error
  | .ok _ => .unfitting

/-- What is wrong with a value in the wrong place. A scalar is read to its end
first, so what is wrong inside it comes first. -/
def mismatch : List Char → ReadError
  | [] => .truncated
  | '[' :: _ | '{' :: _ => .unfitting
  | 'n' :: rest => orUnfitting (word ['u', 'l', 'l'] rest)
  | 't' :: rest => orUnfitting (word ['r', 'u', 'e'] rest)
  | 'f' :: rest => orUnfitting (word ['a', 'l', 's', 'e'] rest)
  | '"' :: rest => orUnfitting (quoted rest)
  | '-' :: rest => orUnfitting (number rest)
  | c :: rest => if isDigit c then orUnfitting (number (c :: rest)) else .malformed

def truth : Reader Bool := fun text =>
  match blanks text with
  | 't' :: rest => (word ['r', 'u', 'e'] rest).map fun rest => (true, rest)
  | 'f' :: rest => (word ['a', 'l', 's', 'e'] rest).map fun rest => (false, rest)
  | other => .error (mismatch other)

def string : Reader String := fun text =>
  match blanks text with
  | '"' :: rest => (quoted rest).map fun (taken, rest) => (String.ofList taken, rest)
  | other => .error (mismatch other)

def word64 : Reader UInt64 := fun text =>
  match blanks text with
  | c :: rest =>
      if isDigit c then
        match number (c :: rest) with
        | .error error => .error error
        | .ok (numeral, rest) =>
            match numeral.word? with
            | none => .error .unfitting
            | some word => .ok (word, rest)
      else
        .error (mismatch (c :: rest))
  | [] => .error .truncated

def orNull {Value : Type} (reader : Reader Value) : Reader (Option Value) := fun text =>
  match blanks text with
  | 'n' :: rest => (word ['u', 'l', 'l'] rest).map fun rest => (none, rest)
  | other => (reader other).map fun (value, rest) => (some value, rest)

/-- Whether a list or an object goes on, and the text behind what says so. -/
inductive Continuation where
  | ended (rest : List Char)
  | another (rest : List Char)

def Continuation.rest : Continuation → List Char
  | .ended rest | .another rest => rest

def nextItem (first : Bool) (text : List Char) : Except ReadError Continuation :=
  match blanks text with
  | [] => .error .truncated
  | ']' :: rest => .ok (.ended rest)
  | c :: rest =>
      if first then
        -- No value starts with a comma.
        if c = ',' then .error .malformed else .ok (.another (c :: rest))
      else if c = ',' then
        match blanks rest with
        | [] => .error .truncated
        | ']' :: _ => .error .malformed
        | _ => .ok (.another rest)
      else
        .error .malformed

def nextKey (first : Bool) (text : List Char) : Except ReadError Continuation :=
  match blanks text with
  | [] => .error .truncated
  | '}' :: rest => .ok (.ended rest)
  | c :: rest =>
      if first then
        if c = '"' then .ok (.another rest) else .error .malformed
      else if c = ',' then
        match blanks rest with
        | [] => .error .truncated
        | '"' :: rest => .ok (.another rest)
        | _ => .error .malformed
      else
        .error .malformed

def colon (text : List Char) : Except ReadError (List Char) :=
  match blanks text with
  | [] => .error .truncated
  | ':' :: rest => .ok rest
  | _ => .error .malformed

variable {State : Type}

def member (fields : List (Field State)) (state : State) (text : List Char) :
    Except ReadError (State × List Char) :=
  match quoted text with
  | .error error => .error error
  | .ok (key, rest) =>
      match fields.find? fun field => field.key == String.ofList key with
      | none =>
          match colon rest with
          | .error error => .error error
          | .ok rest => (skipValue rest).map fun rest => (state, rest)
      | some field =>
          -- The colon behind a repeated key is not looked at.
          if field.isSet state then
            .error .unfitting
          else
            match colon rest with
            | .error error => .error error
            | .ok rest => field.read state rest

theorem length_colon {text rest : List Char} (read : colon text = .ok rest) :
    rest.length < text.length := by
  unfold colon at read
  split at read
  · cases read
  · rename_i found
    cases read
    exact length_of_blanks found
  · cases read

theorem length_member {fields : List (Field State)} {state after : State}
    {text rest : List Char} (read : member fields state text = .ok (after, rest)) :
    rest.length < text.length := by
  unfold member at read
  split at read
  · cases read
  · rename_i key
    have := length_quoted key
    split at read
    · split at read
      · cases read
      · rename_i colon
        have := length_colon colon
        obtain ⟨_, found, same⟩ := of_map read
        cases same
        have := length_skipValue found
        omega
    · rename_i field _
      split at read
      · cases read
      · split at read
        · cases read
        · rename_i colon
          have := length_colon colon
          have := field.consumes _ _ _ _ read
          omega

theorem length_nextKey {first : Bool} {text : List Char} {next : Continuation}
    (read : nextKey first text = .ok next) : next.rest.length < text.length := by
  unfold nextKey at read
  split at read
  · cases read
  · cases read
    exact length_of_blanks ‹_›
  · have := length_of_blanks ‹blanks text = _›
    split at read
    · split at read
      · cases read
        assumption
      · cases read
    · split at read
      · split at read
        · cases read
        · rename_i quote
          cases read
          exact Nat.lt_trans (length_of_blanks quote) this
        · cases read
      · cases read

def members (fields : List (Field State)) (first : Bool) (state : State) (text : List Char) :
    Except ReadError (State × List Char) :=
  match _ : nextKey first text with
  | .error error => .error error
  | .ok (.ended rest) => .ok (state, rest)
  | .ok (.another rest) =>
      match _ : member fields state rest with
      | .error error => .error error
      | .ok (state, rest) => members fields false state rest
termination_by text.length
decreasing_by
  have shorter := length_nextKey ‹nextKey first text = _›
  exact Nat.lt_trans (length_member ‹_›) shorter

def items (mayEndEarly first : Bool) :
    List (Field State) → State → List Char → Except ReadError (State × List Char)
  | [], state, text =>
      match blanks text with
      | [] => .error .truncated
      | ']' :: rest => .ok (state, rest)
      | _ => .error .malformed
  | field :: fields, state, text =>
      match nextItem first text with
      | .error error => .error error
      | .ok (.ended rest) => if mayEndEarly then .ok (state, rest) else .error .unfitting
      | .ok (.another rest) =>
          match field.read state rest with
          | .error error => .error error
          | .ok (state, rest) => items mayEndEarly false fields state rest

def record (shape : Record State) (state : State) : Reader State := fun text =>
  match blanks text with
  | '{' :: rest => members shape.fields true state rest
  | '[' :: rest => items shape.mayEndEarly true shape.fields state rest
  | other => .error (mismatch other)

theorem length_nextItem {first : Bool} {text : List Char} {next : Continuation}
    (read : nextItem first text = .ok next) : next.rest.length ≤ text.length := by
  unfold nextItem at read
  split at read
  · cases read
  · cases read
    exact Nat.le_of_lt (length_of_blanks ‹_›)
  · rename_i found
    have shorter := length_of_blanks found
    have bound := length_blanks text
    split at read
    · split at read
      · cases read
      · cases read
        rwa [found] at bound
    · split at read
      · split at read
        · cases read
        · cases read
        · cases read
          exact Nat.le_of_lt shorter
      · cases read

theorem length_members {fields : List (Field State)} {first : Bool} {state after : State}
    {text rest : List Char} (read : members fields first state text = .ok (after, rest)) :
    rest.length ≤ text.length := by
  fun_induction members fields first state text with
  | case1 => cases read
  | case2 _ _ _ _ next => cases read; exact Nat.le_of_lt (length_nextKey next)
  | case3 => cases read
  | case4 _ _ _ _ next _ _ found ih =>
      have shorter := length_nextKey next
      exact Nat.le_of_lt
        (Nat.lt_of_le_of_lt (ih read) (Nat.lt_trans (length_member found) shorter))

theorem length_items {mayEndEarly first : Bool} {fields : List (Field State)}
    {state after : State} {text rest : List Char}
    (read : items mayEndEarly first fields state text = .ok (after, rest)) :
    rest.length ≤ text.length := by
  induction fields generalizing first state text with
  | nil =>
      unfold items at read
      split at read
      · cases read
      · cases read
        exact Nat.le_of_lt (length_of_blanks ‹_›)
      · cases read
  | cons field fields ih =>
      unfold items at read
      split at read
      · cases read
      · rename_i next
        split at read
        · cases read
          exact length_nextItem next
        · cases read
      · rename_i next
        split at read
        · cases read
        · rename_i value
          exact Nat.le_trans (ih read)
            (Nat.le_trans (field.consumes _ _ _ _ value) (length_nextItem next))

theorem record_consumes (shape : Record State) (state : State) :
    (record shape state).Consumes := by
  intro text after rest read
  unfold record at read
  split at read
  · exact Nat.le_trans (length_members read) (Nat.le_of_lt (length_of_blanks ‹_›))
  · exact Nat.le_trans (length_items read) (Nat.le_of_lt (length_of_blanks ‹_›))
  · cases read

theorem truth_consumes : truth.Consumes := by
  intro text value rest read
  unfold truth at read
  split at read
  · obtain ⟨_, found, same⟩ := of_map read
    cases same
    exact Nat.le_trans (length_word found) (Nat.le_of_lt (length_of_blanks ‹_›))
  · obtain ⟨_, found, same⟩ := of_map read
    cases same
    exact Nat.le_trans (length_word found) (Nat.le_of_lt (length_of_blanks ‹_›))
  · cases read

theorem string_consumes : string.Consumes := by
  intro text value rest read
  unfold string at read
  split at read
  · obtain ⟨_, found, same⟩ := of_map read
    cases same
    exact Nat.le_of_lt (Nat.lt_trans (length_quoted found) (length_of_blanks ‹_›))
  · cases read

theorem word64_consumes : word64.Consumes := by
  intro text value rest read
  unfold word64 at read
  split at read
  · have bound := length_of_blanks ‹_›
    split at read
    · split at read
      · cases read
      · rename_i found
        have shorter := length_number found
        split at read
        · cases read
        · cases read
          exact Nat.le_of_lt_succ (Nat.lt_of_lt_of_le shorter (Nat.succ_le_succ (Nat.le_of_lt bound)))
    · cases read
  · cases read

theorem orNull_consumes {Value : Type} {reader : Reader Value} (consumes : reader.Consumes) :
    (orNull reader).Consumes := by
  intro text value rest read
  unfold orNull at read
  split at read
  · obtain ⟨_, found, same⟩ := of_map read
    cases same
    exact Nat.le_trans (length_word found) (Nat.le_of_lt (length_of_blanks ‹_›))
  · obtain ⟨_, found, same⟩ := of_map read
    cases same
    exact Nat.le_trans (consumes _ _ _ found) (length_blanks text)

end Read

def Field.plain {State Value : Type} (key : String) (get : State → Option Value)
    (put : State → Value → State) (reader : Reader Value) (consumes : reader.Consumes) :
    Field State where
  key
  isSet state := (get state).isSome
  read state text := (reader text).map fun (value, rest) => (put state value, rest)
  consumes state text after rest read := by
    obtain ⟨_, found, same⟩ := Read.of_map read
    cases same
    exact consumes _ _ _ found

end SymbolTable
