import SymbolTable.Config.Reader.Basic

/-!
Quoted strings, from behind the opening quote. A string that is wanted is
unescaped, and code units beyond the first plane have to come in pairs. A
string that is skipped is only checked for its form.
-/
namespace SymbolTable.Read

def hexDigit? (c : Char) : Option Nat :=
  if isDigit c then some (c.toNat - '0'.toNat)
  else if 'a' ≤ c && c ≤ 'f' then some (c.toNat - 'a'.toNat + 10)
  else if 'A' ≤ c && c ≤ 'F' then some (c.toNat - 'A'.toNat + 10)
  else none

/-- Four hexadecimal digits. Where fewer than four bytes are left the text
counts as cut off, whatever these bytes are. -/
def codeUnit : Reader Nat
  | a :: b :: c :: d :: rest =>
      match hexDigit? a, hexDigit? b, hexDigit? c, hexDigit? d with
      | some a, some b, some c, some d => .ok (((a * 16 + b) * 16 + c) * 16 + d, rest)
      | _, _, _, _ => .error .malformed
  | few => .error (if (String.ofList few).utf8ByteSize < 4 then .truncated else .malformed)

def isLeading (unit : Nat) : Bool :=
  0xD800 ≤ unit && unit ≤ 0xDBFF

def isTrailing (unit : Nat) : Bool :=
  0xDC00 ≤ unit && unit ≤ 0xDFFF

def paired (leading trailing : Nat) : Char :=
  Char.ofNat (0x10000 + (leading - 0xD800) * 0x400 + (trailing - 0xDC00))

def trailingUnit : Reader Nat
  | [] | ['\\'] => .error .truncated
  | '\\' :: 'u' :: rest =>
      match codeUnit rest with
      | .error error => .error error
      | .ok (unit, rest) => if isTrailing unit then .ok (unit, rest) else .error .malformed
  | _ => .error .malformed

def codeEscape (text : List Char) : Except ReadError (Char × List Char) :=
  match codeUnit text with
  | .error error => .error error
  | .ok (unit, rest) =>
      if isTrailing unit then
        .error .malformed
      else if isLeading unit then
        match trailingUnit rest with
        | .error error => .error error
        | .ok (trailing, rest) => .ok (paired unit trailing, rest)
      else
        .ok (Char.ofNat unit, rest)

def letterEscape? : Char → Option Char
  | '"' => some '"'
  | '\\' => some '\\'
  | '/' => some '/'
  | 'b' => some '\x08'
  | 'f' => some '\x0c'
  | 'n' => some '\n'
  | 'r' => some '\r'
  | 't' => some '\t'
  | _ => none

def escape : Reader Char
  | [] => .error .truncated
  | c :: rest =>
      if c = 'u' then
        codeEscape rest
      else
        match letterEscape? c with
        | some letter => .ok (letter, rest)
        | none => .error .malformed

def skipEscape : List Char → Except ReadError (List Char)
  | [] => .error .truncated
  | c :: rest =>
      if c = 'u' then
        (codeUnit rest).map Prod.snd
      else if (letterEscape? c).isSome then
        .ok rest
      else
        .error .malformed

def isControl (c : Char) : Bool :=
  c.toNat < 0x20

theorem length_codeUnit {text rest : List Char} {unit : Nat}
    (read : codeUnit text = .ok (unit, rest)) : rest.length ≤ text.length := by
  unfold codeUnit at read
  split at read
  · split at read
    · cases read
      simp only [List.length_cons]
      omega
    · cases read
  · cases read

theorem length_trailingUnit {text rest : List Char} {unit : Nat}
    (read : trailingUnit text = .ok (unit, rest)) : rest.length ≤ text.length := by
  unfold trailingUnit at read
  split at read
  · cases read
  · cases read
  · split at read
    · cases read
    · rename_i found
      split at read
      · cases read
        have bound := length_codeUnit found
        simp only [List.length_cons]
        omega
      · cases read
  · cases read

theorem length_codeEscape {text rest : List Char} {c : Char}
    (read : codeEscape text = .ok (c, rest)) : rest.length ≤ text.length := by
  unfold codeEscape at read
  split at read
  · cases read
  · rename_i found
    have bound := length_codeUnit found
    split at read
    · cases read
    · split at read
      · split at read
        · cases read
        · rename_i trailing
          injection read with same
          injection same with _ same
          exact same ▸ Nat.le_trans (length_trailingUnit trailing) bound
      · injection read with same
        injection same with _ same
        exact same ▸ bound

theorem length_escape {text rest : List Char} {c : Char} (read : escape text = .ok (c, rest)) :
    rest.length ≤ text.length := by
  unfold escape at read
  split at read
  · cases read
  · split at read
    · exact Nat.le_succ_of_le (length_codeEscape read)
    · split at read
      · cases read
        exact Nat.le_succ _
      · cases read

theorem length_skipEscape {text rest : List Char} (read : skipEscape text = .ok rest) :
    rest.length ≤ text.length := by
  unfold skipEscape at read
  split at read
  · cases read
  · split at read
    · obtain ⟨_, found, rfl⟩ := of_map read
      exact Nat.le_succ_of_le (length_codeUnit found)
    · split at read
      · cases read
        exact Nat.le_succ _
      · cases read

def prepend (c : Char) (read : Except ReadError (List Char × List Char)) :
    Except ReadError (List Char × List Char) :=
  read.map fun (more, rest) => (c :: more, rest)

theorem of_prepend {c : Char} {read : Except ReadError (List Char × List Char)}
    {taken rest : List Char} (found : prepend c read = .ok (taken, rest)) :
    ∃ more, read = .ok (more, rest) ∧ taken = c :: more := by
  obtain ⟨_, inner, same⟩ := of_map found
  cases same
  exact ⟨_, inner, rfl⟩

def quoted (text : List Char) : Except ReadError (List Char × List Char) :=
  match text with
  | [] => .error .truncated
  | c :: rest =>
      if c = '"' then
        .ok ([], rest)
      else if c = '\\' then
        match _ : escape rest with
        | .error error => .error error
        | .ok (c, rest) => prepend c (quoted rest)
      else if isControl c then
        .error .malformed
      else
        prepend c (quoted rest)
termination_by text.length
decreasing_by
  · exact Nat.lt_succ_of_le (length_escape ‹_›)
  · exact Nat.lt_succ_self _

def skipQuoted (text : List Char) : Except ReadError (List Char) :=
  match text with
  | [] => .error .truncated
  | c :: rest =>
      if c = '"' then
        .ok rest
      else if c = '\\' then
        match _ : skipEscape rest with
        | .error error => .error error
        | .ok rest => skipQuoted rest
      else if isControl c then
        .error .malformed
      else
        skipQuoted rest
termination_by text.length
decreasing_by
  · exact Nat.lt_succ_of_le (length_skipEscape ‹_›)
  · exact Nat.lt_succ_self _

theorem length_quoted {text taken rest : List Char} (read : quoted text = .ok (taken, rest)) :
    rest.length < text.length := by
  fun_induction quoted text generalizing taken rest with
  | case1 => cases read
  | case2 => cases read; exact Nat.lt_succ_self _
  | case3 => cases read
  | case4 text first behind found _ ih =>
      obtain ⟨_, inner, _⟩ := of_prepend read
      exact Nat.lt_succ_of_le (Nat.le_of_lt (Nat.lt_of_lt_of_le (ih inner) (length_escape found)))
  | case5 => cases read
  | case6 c behind _ _ _ ih =>
      obtain ⟨_, inner, _⟩ := of_prepend read
      exact Nat.lt_succ_of_lt (ih inner)

theorem length_skipQuoted {text rest : List Char} (read : skipQuoted text = .ok rest) :
    rest.length < text.length := by
  fun_induction skipQuoted text with
  | case1 => cases read
  | case2 => cases read; exact Nat.lt_succ_self _
  | case3 => cases read
  | case4 text behind found _ ih =>
      exact Nat.lt_succ_of_le (Nat.le_of_lt (Nat.lt_of_lt_of_le (ih read) (length_skipEscape found)))
  | case5 => cases read
  | case6 c behind _ _ _ ih => exact Nat.lt_succ_of_lt (ih read)

end SymbolTable.Read
