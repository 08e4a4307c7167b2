import LuaBindings.Literal
import LuaBindings.Proofs.Literal.Escapes
import LuaBindings.Proofs.Token.Thinning
import LuaBindings.Stub

/-!
# Names and literals of Lua

How Lua reads the tokens that a stub writes names in: names, which are ASCII, and literals in
double quotes, whose values are bytes. A literal is at least as long as its value, and just as
long only if every character stands for itself (`throughQuote_iff`).
-/

set_option autoImplicit false

namespace LuaBindings.Stub.Lua

open Terminal

/-! ### Names -/

def isName (text : List Char) : Bool :=
  text.head?.any isNameStart && text.all isNameChar && !luaKeywords.contains (String.ofList text)

/-- Takes a name: the longest front part that one might be, if it is one. -/
def name? (text : List Char) : Option (List Char × List Char) :=
  if isName (run isNameChar text).1 then some (run isNameChar text) else none

theorem name?_eq_some {text name rest : List Char} (h : name? text = some (name, rest)) :
    isName name = true ∧ text = name ++ rest := by
  rw [name?] at h
  split at h
  · rename_i hname
    cases h
    exact ⟨hname, (List.takeWhile_append_dropWhile (p := isNameChar)).symm⟩
  · cases h

theorem run_name {name rest : List Char} (hname : isName name = true)
    (hrest : ∀ c ∈ rest.head?, isNameChar c = false) : run isNameChar (name ++ rest) = (name, rest) := by
  have hall : ∀ c ∈ name, isNameChar c = true := by
    simp only [isName, Bool.and_eq_true, List.all_eq_true] at hname
    exact hname.1.2
  exact run_eq_of_append hall hrest

/-- A text before something else is taken as a name just if it is one. -/
theorem name?_append_iff {name rest : List Char}
    (hrest : ∀ c ∈ rest.head?, isNameChar c = false) :
    name? (name ++ rest) = some (name, rest) ↔ isName name = true := by
  refine ⟨fun h => (name?_eq_some h).1, fun h => ?_⟩
  rw [name?, run_name h hrest, if_pos h]

/-! ### Literals -/

def bytes (text : List Char) : List UInt8 := text.flatMap String.utf8EncodeChar

theorem length_bytes_cons (c : Char) (text : List Char) :
    (bytes (c :: text)).length = c.utf8Size + (bytes text).length := by
  rw [bytes, List.flatMap_cons, List.length_append, String.length_utf8EncodeChar]
  rfl

theorem length_bytes_le_cons (c : Char) (text : List Char) :
    1 + (bytes text).length ≤ (bytes (c :: text)).length := by
  rw [length_bytes_cons]
  exact Nat.add_le_add_right c.utf8Size_pos _

theorem length_bytes_le_of_suffix {part text : List Char} (h : part <:+ text) :
    (bytes part).length ≤ (bytes text).length := by
  obtain ⟨front, rfl⟩ := h
  rw [bytes, bytes, List.flatMap_append, List.length_append]
  exact Nat.le_add_left _ _

theorem length_bytes_append (text rest : List Char) :
    (bytes (text ++ rest)).length = (bytes text).length + (bytes rest).length := by
  rw [bytes, List.flatMap_append, List.length_append]
  rfl

theorem length_le_bytes (text : List Char) : text.length ≤ (bytes text).length := by
  induction text with
  | nil => exact Nat.le_refl 0
  | cons c text ih =>
    have hcons := length_bytes_le_cons c text
    rw [List.length_cons]
    omega

/-- The bytes behind the first of a number that takes more than one. -/
def continuation : Nat → Nat → List UInt8
  | 0, _ => []
  | count + 1, n => continuation count (n / 0x40) ++ [.ofNat (0x80 + n % 0x40)]

/-- UTF-8, as it was first defined: for numbers below 0x80000000. -/
def encode (n : Nat) : List UInt8 :=
  if n < 0x80 then [.ofNat n]
  else if n < 0x800 then .ofNat (0xC0 + n / 0x40) :: continuation 1 n
  else if n < 0x10000 then .ofNat (0xE0 + n / 0x1000) :: continuation 2 n
  else if n < 0x200000 then .ofNat (0xF0 + n / 0x40000) :: continuation 3 n
  else if n < 0x4000000 then .ofNat (0xF8 + n / 0x1000000) :: continuation 4 n
  else .ofNat (0xFC + n / 0x40000000) :: continuation 5 n

theorem length_continuation (count n : Nat) : (continuation count n).length = count := by
  induction count generalizing n with
  | zero => rfl
  | succ count ih => rw [continuation, List.length_append, ih, List.length_singleton]

theorem length_encode_le (n : Nat) : (encode n).length ≤ if n < 0x800 then 2 else 6 := by
  rw [encode]
  split
  · split
    · exact Nat.le_succ 1
    · omega
  · split
    · simp [length_continuation]
    · split
      · simp [length_continuation]
      · split
        · simp [length_continuation]
        · split <;> simp [length_continuation]

/-- The characters that an escape names by a letter or by themselves. -/
def escapes : List (Char × UInt8) :=
  [('a', 7), ('b', 8), ('f', 12), ('n', 10), ('r', 13), ('t', 9), ('v', 11), ('\\', 92), ('"', 34),
    ('\'', 39)]

def isSpace (c : Char) : Bool :=
  c == ' ' || c == '\t' || c == '\n' || c == '\r' || c == '\x0b' || c == '\x0c'

/-- Of two different line ends that stand together, the second is part of the first. -/
def behindLineEnd (second : Char) (text : List Char) : List Char :=
  if text.head? = some second then text.drop 1 else text

/-- Hexadecimal digits in braces, of a number that has an encoding. -/
def codePoint? : List Char → Option (List UInt8 × List Char)
  | '\x7b' :: rest =>
    match run isHexDigit rest with
    | (digits, '\x7d' :: rest) =>
      if digits ≠ [] ∧ Literal.hexNumber digits < 0x80000000 then
        some (encode (Literal.hexNumber digits), rest)
      else none
    | _ => none
  | _ => none

/-- Up to three decimal digits of a number that one byte holds. -/
def decimal? (text : List Char) : Option (List UInt8 × List Char) :=
  let count := min 3 (text.takeWhile Char.isDigit).length
  let number := (text.take count).foldl (fun n c => 10 * n + (c.toNat - '0'.toNat)) 0
  if count ≠ 0 ∧ number < 256 then some ([.ofNat number], text.drop count) else none

/-- What follows a backslash: the bytes it stands for, and the text after them. -/
def escape? : List Char → Option (List UInt8 × List Char)
  | [] => none
  | c :: rest =>
    if c = 'x' then
      (Literal.twoDigits? rest).map fun split => ([.ofNat (Literal.hexNumber split.1)], split.2)
    else if c = 'u' then codePoint? rest
    else if c = 'z' then some ([], rest.dropWhile isSpace)
    else if c = '\n' then some ([10], behindLineEnd '\r' rest)
    else if c = '\r' then some ([10], behindLineEnd '\n' rest)
    else if c.isDigit then decimal? (c :: rest)
    else (escapes.lookup c).map fun byte => ([byte], rest)

/-- Two hexadecimal digits at most are a number that takes two bytes at most. -/
theorem hexNumber_lt {digits : List Char} (h : ∀ c ∈ digits, isHexDigit c = true)
    (hlength : digits.length ≤ 2) : Literal.hexNumber digits < 0x800 := by
  rcases digits with _ | ⟨c, _ | ⟨d, _ | ⟨e, rest⟩⟩⟩
  · decide
  · have hc := Literal.hexDigit_lt (h c (by simp))
    simp only [Literal.hexNumber, List.foldl_cons, List.foldl_nil]
    omega
  · have hc := Literal.hexDigit_lt (h c (by simp))
    have hd := Literal.hexDigit_lt (h d (by simp))
    simp only [Literal.hexNumber, List.foldl_cons, List.foldl_nil]
    omega
  · simp only [List.length_cons] at hlength
    omega

/-- The braces and the digits are no fewer than the bytes that the number takes. -/
theorem length_encode_hexNumber {digits : List Char} (h : ∀ c ∈ digits, isHexDigit c = true) :
    (encode (Literal.hexNumber digits)).length ≤ digits.length + 3 := by
  have hle := length_encode_le (Literal.hexNumber digits)
  split at hle
  · omega
  · rename_i hlarge
    by_contra hshort
    exact hlarge (hexNumber_lt h (by omega))

theorem length_codePoint? {text rest : List Char} {value : List UInt8}
    (h : codePoint? text = some (value, rest)) :
    value.length + (bytes rest).length ≤ 1 + (bytes text).length := by
  unfold codePoint? at h
  split at h
  · rename_i inner
    split at h
    · rename_i digits behind hrun
      split at h
      · cases h
        have hdigits : inner = digits ++ '\x7d' :: rest := by
          rw [← run_append isHexDigit inner, hrun]
        have hhex : ∀ c ∈ digits, isHexDigit c = true := by
          intro c hc
          rw [show digits = inner.takeWhile isHexDigit from (congrArg Prod.fst hrun).symm] at hc
          exact List.mem_takeWhile_imp hc
        have hvalue := length_encode_hexNumber hhex
        have hopen := length_bytes_le_cons '\x7b' inner
        have hclose := length_bytes_le_cons '\x7d' rest
        have hlength := length_le_bytes digits
        rw [hdigits, length_bytes_append] at hopen
        rw [hdigits]
        omega
      · cases h
    · cases h
  · cases h

theorem length_twoDigits? {text digits rest : List Char}
    (h : Literal.twoDigits? text = some (digits, rest)) :
    1 + (bytes rest).length ≤ (bytes text).length := by
  unfold Literal.twoDigits? at h
  split at h
  · rename_i c d behind
    split at h
    · cases h
      have hfirst := length_bytes_le_cons c (d :: rest)
      have hsecond := length_bytes_le_cons d rest
      omega
    · cases h
  · cases h

theorem length_behindLineEnd (second : Char) (text : List Char) :
    (bytes (behindLineEnd second text)).length ≤ (bytes text).length := by
  rw [behindLineEnd]
  split
  · exact length_bytes_le_of_suffix (List.drop_suffix 1 text)
  · exact Nat.le_refl _

theorem length_decimal? {text rest : List Char} {value : List UInt8}
    (h : decimal? text = some (value, rest)) :
    value.length + (bytes rest).length ≤ (bytes text).length := by
  rw [decimal?] at h
  generalize hcount : min 3 (text.takeWhile Char.isDigit).length = count at h
  split at h
  · rename_i hdigits
    cases h
    have hle : count ≤ text.length := by
      have hrun := (List.takeWhile_prefix (l := text) Char.isDigit).length_le
      omega
    have hfront := length_le_bytes (text.take count)
    rw [List.length_take_of_le hle] at hfront
    have hsplit := length_bytes_append (text.take count) (text.drop count)
    rw [List.take_append_drop] at hsplit
    rw [List.length_singleton]
    omega
  · cases h

/-- An escape is no shorter than what it stands for, even without its backslash. -/
theorem length_escape? {text rest : List Char} {value : List UInt8}
    (h : escape? text = some (value, rest)) :
    value.length + (bytes rest).length ≤ (bytes text).length := by
  cases text with
  | nil => cases h
  | cons c text =>
    have hcons := length_bytes_le_cons c text
    rw [escape?] at h
    split_ifs at h with hx hu hz hfeed hreturn hdigit
    · obtain ⟨split, hsplit, heq⟩ := Option.map_eq_some_iff.1 h
      cases heq
      have hdigits := length_twoDigits? hsplit
      rw [List.length_singleton]
      omega
    · exact (length_codePoint? h).trans hcons
    · cases h
      have hskipped := length_bytes_le_of_suffix (List.dropWhile_suffix (l := text) isSpace)
      rw [List.length_nil]
      omega
    · cases h
      have hend := length_behindLineEnd '\r' text
      rw [List.length_singleton]
      omega
    · cases h
      have hend := length_behindLineEnd '\n' text
      rw [List.length_singleton]
      omega
    · exact length_decimal? h
    · obtain ⟨byte, -, heq⟩ := Option.map_eq_some_iff.1 h
      cases heq
      exact hcons

/-- Takes a literal from behind its opening quote through its closing one. -/
def throughQuote : List Char → Option (List UInt8 × List Char)
  | [] => none
  | c :: rest =>
    if c = '"' then some ([], rest)
    else if c = '\n' ∨ c = '\r' then none
    else if c = '\\' then
      match h : escape? rest with
      | none => none
      | some (value, behind) =>
        have := length_escape? h
        (throughQuote behind).map fun split => (value ++ split.1, split.2)
    else (throughQuote rest).map fun split => (String.utf8EncodeChar c ++ split.1, split.2)
termination_by text => (bytes text).length
decreasing_by
  · have := length_bytes_le_cons c rest
    omega
  · have := length_bytes_le_cons c rest
    omega

def standsForItself (c : Char) : Bool := !(c == '"' || c == '\\' || c == '\n' || c == '\r')

theorem throughQuote_append {raw : List Char} (h : raw.all standsForItself = true)
    (rest : List Char) : throughQuote (raw ++ '"' :: rest) = some (bytes raw, rest) := by
  induction raw with
  | nil =>
    rw [List.nil_append, throughQuote, if_pos rfl]
    rfl
  | cons c raw ih =>
    rw [List.all_cons, Bool.and_eq_true] at h
    have hc := h.1
    simp only [standsForItself, Bool.not_eq_true', Bool.or_eq_false_iff, beq_eq_false_iff_ne] at hc
    rw [List.cons_append, throughQuote, if_neg hc.1.1.1, if_neg (by simp [hc.1.2, hc.2]),
      if_neg hc.1.1.2, ih h.2]
    rfl

/-- A literal is at least as long as its value, and just as long only without escapes. -/
theorem length_throughQuote {text rest : List Char} {value : List UInt8}
    (h : throughQuote text = some (value, rest)) :
    value.length + 1 + (bytes rest).length ≤ (bytes text).length ∧
      (value.length + 1 + (bytes rest).length = (bytes text).length →
        ∃ raw, raw.all standsForItself = true ∧ text = raw ++ '"' :: rest) := by
  fun_induction throughQuote text generalizing value with
  | case1 => cases h
  | case2 rest =>
    cases h
    refine ⟨?_, fun _ => ⟨[], rfl, rfl⟩⟩
    have hcons := length_bytes_le_cons '"' rest
    rw [List.length_nil]
    omega
  | case3 => cases h
  | case4 => cases h
  | case5 text value' behind hescape _ _ _ ih =>
    obtain ⟨split, hsplit, heq⟩ := Option.map_eq_some_iff.1 h
    cases heq
    have hle := (ih hsplit).1
    have hshort := length_escape? hescape
    have hcons := length_bytes_le_cons '\\' text
    rw [List.length_append]
    exact ⟨by omega, fun hequal => by omega⟩
  | case6 c text hquote hend hbackslash ih =>
    obtain ⟨split, hsplit, heq⟩ := Option.map_eq_some_iff.1 h
    cases heq
    obtain ⟨hle, hequal⟩ := ih hsplit
    have hcons := length_bytes_cons c text
    rw [List.length_append, String.length_utf8EncodeChar]
    refine ⟨by omega, fun hall => ?_⟩
    obtain ⟨raw, hraw, htext⟩ := hequal (by omega)
    refine ⟨c :: raw, ?_, by rw [htext]; rfl⟩
    rw [List.all_cons, hraw, Bool.and_true]
    rw [not_or] at hend
    simp [standsForItself, hquote, hend, hbackslash]

/-- A text is a literal with itself as the value just if all its characters stand for
themselves. -/
theorem throughQuote_iff (text rest : List Char) :
    throughQuote (text ++ '"' :: rest) = some (bytes text, rest) ↔
      text.all standsForItself = true := by
  refine ⟨fun h => ?_, fun h => throughQuote_append h rest⟩
  have hlength : (bytes text).length + 1 + (bytes rest).length =
      (bytes (text ++ '"' :: rest)).length := by
    rw [bytes, bytes, bytes, List.flatMap_append, List.length_append, List.flatMap_cons,
      List.length_append]
    change _ = _ + (1 + _)
    omega
  obtain ⟨raw, hraw, htext⟩ := (length_throughQuote h).2 hlength
  rw [List.append_cancel_right htext]
  exact hraw

end LuaBindings.Stub.Lua
