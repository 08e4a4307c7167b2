import LuaBindings.Text.Blank
import LuaBindings.Token.Terminal

/-!
# String literals

Reading the value of a literal and writing a value as one. A plain literal has
escapes; a raw one is taken as it stands. An escape that is none stands for its own
character, and a backslash at the very end stands for itself. The only literal
without a value is one that names a code point beyond the last.
-/

set_option autoImplicit false

namespace LuaBindings.Literal

/-- The literal as generated code spells it: only backslashes, quotes and line feeds
are escaped. -/
def quoteChar (c : Char) : List Char :=
  if c = '\\' then ['\\', '\\']
  else if c = '"' then ['\\', '"']
  else if c = '\n' then ['\\', 'n']
  else [c]

def quote (value : String) : String :=
  "\"" ++ String.ofList (value.toList.flatMap quoteChar) ++ "\""

def hexDigit (c : Char) : Nat :=
  if c.isDigit then c.toNat - '0'.toNat
  else if 'a' ≤ c then c.toNat - 'a'.toNat + 10
  else c.toNat - 'A'.toNat + 10

def hexNumber (digits : List Char) : Nat :=
  digits.foldl (fun n c => 16 * n + hexDigit c) 0

def escapedChar (c : Char) : Char :=
  if c = 'n' then '\n'
  else if c = 't' then '\t'
  else if c = 'r' then '\r'
  else if c = '0' then '\x00'
  else c

/-- What follows a backslash: the characters it stands for, and the text after them. -/
structure Escape where
  value : List Char
  rest : List Char

/-- The character of a code point. That of half a surrogate pair is the null character. -/
def codePoint? (n : Nat) : Option Char :=
  if n < 0x110000 then some (Char.ofNat n) else none

/-- Braces with one to six hexadecimal digits, and the text after them. -/
def bracedDigits? : List Char → Option (List Char × List Char)
  | '\x7b' :: rest =>
    match Terminal.run Terminal.isHexDigit rest with
    | (digits, '\x7d' :: rest) =>
      if 1 ≤ digits.length ∧ digits.length ≤ 6 then some (digits, rest) else none
    | _ => none
  | _ => none

def twoDigits? : List Char → Option (List Char × List Char)
  | c :: d :: rest =>
    if Terminal.isHexDigit c ∧ Terminal.isHexDigit d then some ([c, d], rest) else none
  | _ => none

/-- The number that an escape gives in hexadecimal digits, and the text after it. -/
def numbered? : List Char → Option (Nat × List Char)
  | 'u' :: rest => (bracedDigits? rest).map fun split => (hexNumber split.1, split.2)
  | 'x' :: rest => (twoDigits? rest).map fun split => (hexNumber split.1, split.2)
  | _ => none

def escape (c : Char) (rest : List Char) : Option Escape :=
  match numbered? (c :: rest) with
  | some (n, rest) => (codePoint? n).map fun c => ⟨[c], rest⟩
  | none =>
    if c = '\n' then some ⟨[], rest.dropWhile Text.isBlank⟩
    else some ⟨[escapedChar c], rest⟩

theorem run_length_le (p : Char → Bool) (text : List Char) :
    (Terminal.run p text).2.length ≤ text.length :=
  (List.dropWhile_suffix p).length_le

theorem bracedDigits?_length {text digits rest : List Char}
    (h : bracedDigits? text = some (digits, rest)) : rest.length ≤ text.length := by
  unfold bracedDigits? at h
  split at h
  · rename_i tail
    split at h
    · rename_i rest' hrun
      have hle := run_length_le Terminal.isHexDigit tail
      rw [hrun] at hle
      split at h
      · cases h
        simp only [List.length_cons] at hle ⊢
        omega
      · cases h
    · cases h
  · cases h

theorem twoDigits?_length {text digits rest : List Char}
    (h : twoDigits? text = some (digits, rest)) : rest.length ≤ text.length := by
  unfold twoDigits? at h
  split at h
  · split at h
    · cases h
      simp only [List.length_cons]
      omega
    · cases h
  · cases h

theorem numbered?_length {c : Char} {text rest : List Char} {n : Nat}
    (h : numbered? (c :: text) = some (n, rest)) : rest.length ≤ text.length := by
  unfold numbered? at h
  split at h
  · obtain ⟨split, hsplit, heq⟩ := Option.map_eq_some_iff.1 h
    simp_all only [List.cons.injEq, Prod.mk.injEq]
    rw [← heq.2]
    exact bracedDigits?_length hsplit
  · obtain ⟨split, hsplit, heq⟩ := Option.map_eq_some_iff.1 h
    simp_all only [List.cons.injEq, Prod.mk.injEq]
    rw [← heq.2]
    exact twoDigits?_length hsplit
  · cases h

theorem escape_length {c : Char} {text : List Char} {e : Escape} (h : escape c text = some e) :
    e.rest.length ≤ text.length := by
  unfold escape at h
  split at h
  · rename_i hnum
    obtain ⟨_, _, rfl⟩ := Option.map_eq_some_iff.1 h
    exact numbered?_length hnum
  · split at h
    · cases h
      exact (List.dropWhile_suffix _).length_le
    · cases h
      exact Nat.le_refl _

/-- The value of the text between the quotes of a plain literal. -/
def unescape (text : List Char) : Option (List Char) :=
  match text with
  | [] => some []
  | [c] => some [c]
  | c :: d :: rest =>
    if c = '\\' then
      match h : escape d rest with
      | none => none
      | some e =>
        have : e.rest.length ≤ rest.length := escape_length h
        (unescape e.rest).map (e.value ++ ·)
    else (unescape (d :: rest)).map (c :: ·)
termination_by text.length

def strip (text : List Char) : List Char := (text.drop 1).dropLast

/-- The text between the quotes of a raw literal that begins with its letter. -/
def rawValue (text : List Char) : List Char :=
  let hashes := ((text.drop 1).takeWhile (· == '#')).length
  (text.take (text.length - 1 - hashes)).drop (2 + hashes)

/-- The value of a string literal of any kind, or `none` if an escape names a code
point that does not exist. A byte literal is read as the literal behind its letter. -/
def decode (literal : String) : Option String :=
  let text := match literal.toList with
    | 'b' :: rest => rest
    | text => text
  match text with
  | 'r' :: _ => some (String.ofList (rawValue text))
  | _ => (unescape (strip text)).map String.ofList

end LuaBindings.Literal
