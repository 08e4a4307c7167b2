import LuaBindings.Proofs.Literal.Rereading
import Mathlib.Data.List.Chain
import Mathlib.Data.List.ReduceOption

/-!
# What a string literal of Rust stands for

A string literal of Rust is made of pieces: characters that stand for themselves, escapes, and
line ends that are skipped with the blanks behind them. The value that is read off such a
literal is compared with the one that Rust gives it. They differ where an underscore stands
between the digits of an escape, and where a line that goes on begins with a blank that Rust
keeps (`RustString.decode_eq_some_iff`).
-/

set_option autoImplicit false

namespace LuaBindings

open Literal (unescape)

/-! ### The pieces of a literal -/

def IsPlain (c : Char) : Prop := c ≠ '"' ∧ c ≠ '\\'

instance (c : Char) : Decidable (IsPlain c) := inferInstanceAs (Decidable (_ ∧ _))

/-- A hexadecimal digit, whose letter is written in one of two cases. -/
structure HexDigit where
  value : Fin 16
  isUpper : Bool

namespace HexDigit

def char (d : HexDigit) : Char :=
  if d.value < 10 then Char.ofNat ('0'.toNat + d.value)
  else Char.ofNat ((if d.isUpper then 'A' else 'a').toNat + d.value - 10)

def number (digits : List HexDigit) : Nat := digits.foldl (fun n d => 16 * n + d.value) 0

theorem isHexDigit_char (d : HexDigit) : Terminal.isHexDigit d.char = true := by
  obtain ⟨value, isUpper⟩ := d
  revert value isUpper
  decide

theorem hexDigit_char (d : HexDigit) : Literal.hexDigit d.char = d.value := by
  obtain ⟨value, isUpper⟩ := d
  revert value isUpper
  decide

theorem twoDigits?_char (high low : HexDigit) (rest : List Char) :
    Literal.twoDigits? (high.char :: low.char :: rest) = some ([high.char, low.char], rest) :=
  if_pos ⟨high.isHexDigit_char, low.isHexDigit_char⟩

theorem isHexDigit_of_mem {digits : List HexDigit} {c : Char} (h : c ∈ digits.map char) :
    Terminal.isHexDigit c = true := by
  obtain ⟨d, -, rfl⟩ := List.mem_map.1 h
  exact d.isHexDigit_char

theorem hexNumber_map_char (digits : List HexDigit) :
    Literal.hexNumber (digits.map char) = number digits := by
  simp only [Literal.hexNumber, number, List.foldl_map, hexDigit_char]

end HexDigit

inductive SimpleEscape where
  | lineFeed | carriageReturn | tab | null | backslash | quote | apostrophe

namespace SimpleEscape

def mark : SimpleEscape → Char
  | .lineFeed => 'n'
  | .carriageReturn => 'r'
  | .tab => 't'
  | .null => '0'
  | .backslash => '\\'
  | .quote => '"'
  | .apostrophe => '\''

def value : SimpleEscape → Char
  | .lineFeed => '\n'
  | .carriageReturn => '\r'
  | .tab => '\t'
  | .null => '\x00'
  | .backslash => '\\'
  | .quote => '"'
  | .apostrophe => '\''

end SimpleEscape

/-- The digits between the braces of an escape, which name a character. Behind the first one
there may be underscores, which are given as `none`. -/
structure UnicodeEscape where
  first : HexDigit
  further : List (Option HexDigit)
  short : further.reduceOption.length ≤ 5
  scalar : (HexDigit.number (first :: further.reduceOption)).isValidChar

namespace UnicodeEscape

def digits (e : UnicodeEscape) : List HexDigit := e.first :: e.further.reduceOption

def body (e : UnicodeEscape) : List Char :=
  e.first.char :: e.further.map fun d => d.elim '_' HexDigit.char

def braces (e : UnicodeEscape) : List Char := '\x7b' :: (e.body ++ ['\x7d'])

def hasUnderscore (e : UnicodeEscape) : Bool := e.further.any Option.isNone

def value (e : UnicodeEscape) : Char := Char.ofNat (HexDigit.number e.digits)

end UnicodeEscape

def isLineBlank (c : Char) : Bool := c == ' ' || c == '\t' || c == '\n' || c == '\r'

inductive LiteralPiece where
  | plain (c : Char) (h : IsPlain c)
  | simple (e : SimpleEscape)
  | byte (high low : HexDigit) (h : high.value < 8)
  | unicode (e : UnicodeEscape)
  | lineEnd (blanks : List Char) (h : ∀ c ∈ blanks, isLineBlank c = true)

namespace LiteralPiece

def text : LiteralPiece → List Char
  | .plain c _ => [c]
  | .simple e => ['\\', e.mark]
  | .byte high low _ => ['\\', 'x', high.char, low.char]
  | .unicode e => '\\' :: 'u' :: e.braces
  | .lineEnd blanks _ => '\\' :: '\n' :: blanks

def value : LiteralPiece → List Char
  | .plain c _ => [c]
  | .simple e => [e.value]
  | .byte high low _ => [Char.ofNat (HexDigit.number [high, low])]
  | .unicode e => [e.value]
  | .lineEnd _ _ => []

def hasUnderscore : LiteralPiece → Bool
  | .unicode e => e.hasUnderscore
  | _ => false

def isLineEnd : LiteralPiece → Bool
  | .lineEnd _ _ => true
  | _ => false

def isPlain (p : Char → Bool) : LiteralPiece → Bool
  | .plain c _ => p c
  | _ => false

def NoneBehindLineEnd (blank : Char → Bool) (pieces : List LiteralPiece) : Prop :=
  pieces.IsChain fun p q => p.isLineEnd = true → q.isPlain blank = false

instance (blank : Char → Bool) (pieces : List LiteralPiece) :
    Decidable (NoneBehindLineEnd blank pieces) := inferInstanceAs (Decidable (List.IsChain _ _))

end LiteralPiece

/-- A string literal of Rust. A line end takes all the blanks that it can. -/
structure RustString where
  pieces : List LiteralPiece
  lineEnds : LiteralPiece.NoneBehindLineEnd isLineBlank pieces

namespace RustString

def literal (s : RustString) : String :=
  String.ofList ('"' :: (s.pieces.flatMap LiteralPiece.text ++ ['"']))

def value (s : RustString) : String := String.ofList (s.pieces.flatMap LiteralPiece.value)

end RustString

/-! ### What is read off a piece -/

theorem closesFirmly_plains {chars : List Char} (h : ∀ c ∈ chars, IsPlain c)
    (rest : List Char) : Terminal.closesFirmly (chars ++ rest) = Terminal.closesFirmly rest := by
  induction chars with
  | nil => rfl
  | cons c chars ih =>
    obtain ⟨hc, hchars⟩ := List.forall_mem_cons.1 h
    rw [List.cons_append, Terminal.closesFirmly_plain hc.1 hc.2, ih hchars]

theorem unescape_plains {chars : List Char} (h : ∀ c ∈ chars, IsPlain c)
    (rest : List Char) : unescape (chars ++ rest) = (unescape rest).map (chars ++ ·) := by
  induction chars with
  | nil => simp
  | cons c chars ih =>
    obtain ⟨hc, hchars⟩ := List.forall_mem_cons.1 h
    rw [List.cons_append, Literal.unescape_char hc.2, ih hchars, Option.map_map]
    rfl

theorem isPlain_of_isHexDigit {c : Char} (h : Terminal.isHexDigit c = true) : IsPlain c := by
  constructor <;> rintro rfl <;> cases h

theorem isPlain_of_isLineBlank {c : Char} (h : isLineBlank c = true) : IsPlain c := by
  constructor <;> rintro rfl <;> cases h

theorem isBlank_of_isLineBlank {c : Char} (h : isLineBlank c = true) :
    Text.isBlank c = true := by
  simp only [isLineBlank, Bool.or_eq_true, beq_iff_eq] at h
  obtain ((rfl | rfl) | rfl) | rfl := h <;> decide

namespace UnicodeEscape
variable {e : UnicodeEscape}

theorem body_eq (h : e.hasUnderscore = false) : e.body = e.digits.map HexDigit.char := by
  have hfurther (further : List (Option HexDigit)) (h : further.any Option.isNone = false) :
      further.map (fun d => d.elim '_' HexDigit.char) =
        further.reduceOption.map HexDigit.char := by
    induction further with
    | nil => rfl
    | cons d further ih =>
      rw [List.any_cons, Bool.or_eq_false_iff] at h
      cases d with
      | none => cases h.1
      | some d => rw [List.map_cons, ih h.2, List.reduceOption_cons_of_some, List.map_cons]; rfl
  rw [body, hfurther _ h, digits, List.map_cons]

theorem underscore_mem_body (h : e.hasUnderscore = true) : '_' ∈ e.body := by
  obtain ⟨d, hd, hnone⟩ := List.any_eq_true.1 h
  rw [Option.isNone_iff_eq_none] at hnone
  exact List.mem_cons_of_mem _ (List.mem_map.2 ⟨d, hd, by rw [hnone]; rfl⟩)

theorem of_mem_body {c : Char} (h : c ∈ e.body) : c = '_' ∨ Terminal.isHexDigit c = true := by
  obtain rfl | h := List.mem_cons.1 h
  · exact .inr e.first.isHexDigit_char
  · obtain ⟨d, -, rfl⟩ := List.mem_map.1 h
    cases d with
    | none => exact .inl rfl
    | some d => exact .inr d.isHexDigit_char

theorem isPlain_of_mem_braces {c : Char} (h : c ∈ e.braces) : IsPlain c := by
  obtain rfl | h := List.mem_cons.1 h
  · decide
  · obtain h | h := List.mem_append.1 h
    · obtain rfl | h := of_mem_body h
      · decide
      · exact isPlain_of_isHexDigit h
    · rw [List.mem_singleton.1 h]
      decide

theorem braces_append (e : UnicodeEscape) (rest : List Char) :
    e.braces ++ rest = '\x7b' :: (e.body ++ '\x7d' :: rest) := by
  simp [braces]

theorem number_digits_lt (e : UnicodeEscape) : HexDigit.number e.digits < 0x110000 := by
  obtain h | h := e.scalar
  · exact h.trans (by decide)
  · exact h.2

theorem bracedDigits?_braces (h : e.hasUnderscore = false) (rest : List Char) :
    Literal.bracedDigits? (e.braces ++ rest) = some (e.digits.map HexDigit.char, rest) := by
  rw [braces_append, body_eq h]
  refine Literal.bracedDigits?_eq_some_iff.2 ⟨rfl, fun c => HexDigit.isHexDigit_of_mem, ?_⟩
  have hshort := e.short
  simp only [digits, List.length_map, List.length_cons]
  omega

/-- An underscore keeps an escape from being read as one. -/
theorem bracedDigits?_eq_none (h : e.hasUnderscore = true) (rest : List Char) :
    Literal.bracedDigits? (e.braces ++ rest) = none := by
  rw [braces_append, Option.eq_none_iff_forall_ne_some]
  rintro ⟨digits, after⟩ hsome
  obtain ⟨heq, hdigits, -⟩ := Literal.bracedDigits?_eq_some_iff.1 hsome
  have hinside {text : List Char} (htext : '\x7d' ∉ text) (rest : List Char) :
      (text ++ '\x7d' :: rest).takeWhile (· != '\x7d') = text := by
    rw [List.takeWhile_append_of_pos fun c hc => bne_iff_ne.2 (ne_of_mem_of_not_mem hc htext)]
    simp
  have hbody : '\x7d' ∉ e.body := fun hmem => by
    obtain hclose | hclose := of_mem_body hmem <;> cases hclose
  have hclose : '\x7d' ∉ digits := fun hmem => by cases hdigits _ hmem
  have hsame : e.body = digits := by
    rw [← hinside hbody rest, (List.cons.inj heq).2, hinside hclose]
  have hunderscore := hdigits '_' (hsame ▸ underscore_mem_body h)
  cases hunderscore

end UnicodeEscape

namespace LiteralPiece

/-- What a piece is read as. An escape with an underscore is read as it is written, without
its backslash. -/
def read : LiteralPiece → List Char
  | .unicode e =>
    if e.hasUnderscore then 'u' :: e.braces else [e.value]
  | p => p.value

/-- What pieces are read as behind a line end or not: blanks of all kinds are skipped there. -/
def readAll (skips : Bool) : List LiteralPiece → List Char
  | [] => []
  | p :: pieces =>
    if skips && p.isPlain Text.isBlank then readAll true pieces
    else p.read ++ readAll p.isLineEnd pieces

theorem closesFirmly_text (p : LiteralPiece) (rest : List Char) :
    Terminal.closesFirmly (p.text ++ rest) = Terminal.closesFirmly rest := by
  have hescaped (c : Char) {chars : List Char} (h : ∀ c ∈ chars, IsPlain c) :
      Terminal.closesFirmly ('\\' :: c :: chars ++ rest) = Terminal.closesFirmly rest :=
    (Terminal.closesFirmly_escaped _ _).trans (closesFirmly_plains h rest)
  cases p with
  | plain c h => exact Terminal.closesFirmly_plain h.1 h.2 rest
  | simple e => exact Terminal.closesFirmly_escaped _ rest
  | byte high low h =>
    have hdigits : ∀ c ∈ [high, low].map HexDigit.char, IsPlain c := fun c hc =>
      isPlain_of_isHexDigit (HexDigit.isHexDigit_of_mem hc)
    exact hescaped 'x' hdigits
  | unicode e => exact hescaped 'u' fun c => UnicodeEscape.isPlain_of_mem_braces
  | lineEnd blanks h => exact hescaped '\n' fun c hc => isPlain_of_isLineBlank (h c hc)

/-- One piece is read, and after a line end the blanks of all kinds are skipped. -/
theorem unescape_text_append (p : LiteralPiece) (rest : List Char) :
    unescape (p.text ++ rest) =
      (unescape (if p.isLineEnd then rest.dropWhile Text.isBlank else rest)).map
        (p.read ++ ·) := by
  -- An escape of digits, if the number that they give is in the range of characters.
  have hnumber {c : Char} {text : List Char} {n : Nat}
      (hread : Literal.numbered? (c :: text) = some (n, rest)) (hn : n < 0x110000) :
      unescape ('\\' :: c :: text) = (unescape rest).map ([Char.ofNat n] ++ ·) := by
    rw [Literal.unescape_backslash, Literal.escape, hread]
    simp [Literal.codePoint?, hn]
  cases p with
  | plain c h => exact Literal.unescape_char h.2 rest
  | simple e => cases e <;> exact Literal.unescape_backslash _ _
  | byte high low h =>
    have hread : Literal.numbered? ('x' :: high.char :: low.char :: rest) =
        some (HexDigit.number [high, low], rest) := by
      rw [Literal.numbered?, HexDigit.twoDigits?_char, ← HexDigit.hexNumber_map_char]
      rfl
    have hlt : HexDigit.number [high, low] < 0x110000 := by
      simp only [HexDigit.number, List.foldl_cons, List.foldl_nil]
      omega
    exact hnumber hread hlt
  | unicode e =>
    cases hunderscore : e.hasUnderscore with
    | false =>
      have hread : Literal.numbered? ('u' :: (e.braces ++ rest)) =
          some (HexDigit.number e.digits, rest) := by
        rw [Literal.numbered?, UnicodeEscape.bracedDigits?_braces hunderscore,
          ← HexDigit.hexNumber_map_char]
        rfl
      rw [read, if_neg (by simp [hunderscore])]
      exact hnumber hread e.number_digits_lt
    | true =>
      have hread : Literal.numbered? ('u' :: (e.braces ++ rest)) = none := by
        rw [Literal.numbered?, UnicodeEscape.bracedDigits?_eq_none hunderscore]
        rfl
      have hescape : Literal.escape 'u' (e.braces ++ rest) = some ⟨['u'], e.braces ++ rest⟩ := by
        rw [Literal.escape, hread]
        rfl
      refine (Literal.unescape_backslash 'u' (e.braces ++ rest)).trans ?_
      rw [hescape, Option.bind_some, unescape_plains fun c => UnicodeEscape.isPlain_of_mem_braces,
        Option.map_map, read, if_pos hunderscore]
      rfl
  | lineEnd blanks h =>
    have hskip : (blanks ++ rest).dropWhile Text.isBlank = rest.dropWhile Text.isBlank :=
      List.dropWhile_append_of_pos fun c hc => isBlank_of_isLineBlank (h c hc)
    refine (Literal.unescape_backslash _ _).trans ?_
    simp [Literal.escape, Literal.numbered?, hskip, read, value, isLineEnd]

/-- A piece that is no blank keeps what follows a line end from being skipped. -/
theorem dropWhile_text_append {p : LiteralPiece} (h : p.isPlain Text.isBlank = false)
    (rest : List Char) : (p.text ++ rest).dropWhile Text.isBlank = p.text ++ rest := by
  have hslash (text : List Char) : ('\\' :: text).dropWhile Text.isBlank = '\\' :: text :=
    List.dropWhile_cons_of_neg (by decide)
  cases p with
  | plain c _ => exact List.dropWhile_cons_of_neg (by simpa [isPlain] using h)
  | simple e => exact hslash _
  | byte high low _ => exact hslash _
  | unicode e => exact hslash _
  | lineEnd blanks _ => exact hslash _

theorem dropWhile_blank_append {p : LiteralPiece} (h : p.isPlain Text.isBlank = true)
    (rest : List Char) :
    (p.text ++ rest).dropWhile Text.isBlank = rest.dropWhile Text.isBlank := by
  cases p with
  | plain c _ => exact List.dropWhile_cons_of_pos h
  | _ => cases h

/-- Pieces are read one by one, behind a line end or not. -/
theorem unescape_flatMap_text (pieces : List LiteralPiece) (skips : Bool) :
    unescape (if skips then (pieces.flatMap text).dropWhile Text.isBlank
      else pieces.flatMap text) = some (readAll skips pieces) := by
  induction pieces generalizing skips with
  | nil => cases skips <;> simp [unescape, readAll]
  | cons p pieces ih =>
    have hpiece : unescape (p.text ++ pieces.flatMap text) =
        some (p.read ++ readAll p.isLineEnd pieces) := by
      rw [unescape_text_append, ih]
      rfl
    rw [List.flatMap_cons, readAll]
    cases skips with
    | false => exact hpiece
    | true =>
      cases hblank : p.isPlain Text.isBlank with
      | false => rw [if_pos rfl, dropWhile_text_append hblank, hpiece]; rfl
      | true => rw [dropWhile_blank_append hblank]; exact ih true

/-! ### Where what is read is the value -/

theorem read_eq_value {p : LiteralPiece} (h : p.hasUnderscore = false) : p.read = p.value := by
  cases p with
  | unicode e =>
    rw [hasUnderscore] at h
    simp [read, value, h]
  | _ => rfl

theorem value_of_isPlain {blank : Char → Bool} {p : LiteralPiece} (h : p.isPlain blank = true) :
    ∃ c, p.value = [c] ∧ blank c = true ∧ p.hasUnderscore = false := by
  cases p with
  | plain c _ => exact ⟨c, rfl, h, rfl⟩
  | _ => cases h

theorem countP_value_add_le (p : LiteralPiece) :
    p.value.countP (fun c => !Text.isBlank c) + (if p.hasUnderscore then 1 else 0) ≤
      p.read.countP fun c => !Text.isBlank c := by
  cases h : p.hasUnderscore with
  | false => simp [read_eq_value h]
  | true =>
    cases p with
    | unicode e =>
      have hvalue := List.countP_le_length (p := fun c => !Text.isBlank c) (l := [e.value])
      have hletters : 2 ≤ ('u' :: e.braces).countP fun c => !Text.isBlank c := by
        rw [UnicodeEscape.braces, List.countP_cons_of_pos (by decide),
          List.countP_cons_of_pos (by decide)]
        omega
      rw [hasUnderscore] at h
      rw [read, if_pos h]
      exact (Nat.add_le_add_right hvalue 1).trans hletters
    | _ => cases h

/-- Only blanks are skipped, and an underscore is read with characters that are none. -/
theorem countP_flatMap_value_add_le (pieces : List LiteralPiece) (skips : Bool) :
    (pieces.flatMap value).countP (fun c => !Text.isBlank c) + pieces.countP hasUnderscore ≤
      (readAll skips pieces).countP fun c => !Text.isBlank c := by
  induction pieces generalizing skips with
  | nil => rfl
  | cons p pieces ih =>
    rw [List.flatMap_cons, List.countP_append, List.countP_cons, readAll]
    cases hskip : skips && p.isPlain Text.isBlank with
    | true =>
      obtain ⟨c, hvalue, hc, hmark⟩ := value_of_isPlain (Bool.and_eq_true_iff.1 hskip).2
      have hnone : [c].countP (fun c => !Text.isBlank c) = 0 := by simp [hc]
      rw [hvalue, hmark, hnone, Nat.zero_add]
      exact ih true
    | false =>
      have hpiece := countP_value_add_le p
      have hrest := ih p.isLineEnd
      rw [if_neg Bool.false_ne_true, List.countP_append]
      omega

theorem readAll_sublist {pieces : List LiteralPiece} (h : ∀ p ∈ pieces, p.hasUnderscore = false)
    (skips : Bool) : (readAll skips pieces).Sublist (pieces.flatMap value) := by
  induction pieces generalizing skips with
  | nil => exact .slnil
  | cons p pieces ih =>
    obtain ⟨hp, hpieces⟩ := List.forall_mem_cons.1 h
    rw [List.flatMap_cons, readAll]
    split
    · exact (ih hpieces true).trans (List.sublist_append_right _ _)
    · rw [read_eq_value hp]
      exact (ih hpieces p.isLineEnd).append_left p.value

theorem noneBehindLineEnd_cons {blank : Char → Bool} {p : LiteralPiece}
    {pieces : List LiteralPiece} :
    NoneBehindLineEnd blank (p :: pieces) ↔
      (p.isLineEnd = true → ∀ q ∈ pieces.head?, q.isPlain blank = false) ∧
        NoneBehindLineEnd blank pieces := by
  refine List.isChain_cons.trans (and_congr_left fun _ => ?_)
  exact ⟨fun h hend q hq => h q hq hend, fun h q hq hend => h hend q hq⟩

theorem readAll_eq_iff_of_forall {pieces : List LiteralPiece}
    (h : ∀ p ∈ pieces, p.hasUnderscore = false) (skips : Bool) :
    readAll skips pieces = pieces.flatMap value ↔
      (skips = true → ∀ p ∈ pieces.head?, p.isPlain Text.isBlank = false) ∧
        NoneBehindLineEnd Text.isBlank pieces := by
  induction pieces generalizing skips with
  | nil => simp [readAll, NoneBehindLineEnd]
  | cons p pieces ih =>
    obtain ⟨hp, hpieces⟩ := List.forall_mem_cons.1 h
    rw [List.flatMap_cons, readAll, List.head?_cons]
    cases hskip : skips && p.isPlain Text.isBlank with
    | true =>
      -- Something is skipped, so that less is read than the value has.
      obtain ⟨hskips, hblank⟩ := Bool.and_eq_true_iff.1 hskip
      obtain ⟨c, hvalue, -⟩ := value_of_isPlain hblank
      have hlength := (readAll_sublist hpieces true).length_le
      constructor
      · intro heq
        rw [if_pos rfl, hvalue] at heq
        rw [heq, List.singleton_append, List.length_cons] at hlength
        omega
      · rintro ⟨hhead, -⟩
        rw [hhead hskips p rfl] at hblank
        cases hblank
    | false =>
      have hhead : skips = true → ∀ q ∈ some p, q.isPlain Text.isBlank = false := by
        rintro rfl q hq
        cases hq
        simpa using hskip
      rw [if_neg Bool.false_ne_true, read_eq_value hp, List.append_cancel_left_eq, ih hpieces,
        ← noneBehindLineEnd_cons, and_iff_right hhead]

theorem readAll_eq_iff (pieces : List LiteralPiece) :
    readAll false pieces = pieces.flatMap value ↔
      NoneBehindLineEnd Text.isBlank pieces ∧ ∀ p ∈ pieces, p.hasUnderscore = false := by
  constructor
  · intro h
    have hcount := countP_flatMap_value_add_le pieces false
    rw [h] at hcount
    have hnone : ∀ p ∈ pieces, ¬p.hasUnderscore = true := List.countP_eq_zero.1 (by omega)
    simp only [Bool.not_eq_true] at hnone
    exact ⟨((readAll_eq_iff_of_forall hnone false).1 h).2, hnone⟩
  · rintro ⟨hkept, hnone⟩
    exact (readAll_eq_iff_of_forall hnone false).2 ⟨fun h => absurd h Bool.false_ne_true, hkept⟩

end LiteralPiece

namespace RustString

/-- A string literal of Rust is one token, and what is read off it is its value just if no
blank that Rust keeps stands behind a line end and no escape has an underscore. -/
theorem decode_eq_some_iff (s : RustString) :
    IsToken .string s.literal ∧
      (Literal.decode s.literal = some s.value ↔
        LiteralPiece.NoneBehindLineEnd Text.isBlank s.pieces ∧
          ∀ p ∈ s.pieces, p.hasUnderscore = false) := by
  have hcloses : Terminal.closesFirmly (s.pieces.flatMap LiteralPiece.text ++ ['"']) = true :=
    Terminal.closesFirmly_flatMap (fun p _ => p.closesFirmly_text) ['"']
  refine ⟨Literal.isToken_quoted hcloses, ?_⟩
  have hread : unescape (s.pieces.flatMap LiteralPiece.text) =
      some (LiteralPiece.readAll false s.pieces) :=
    LiteralPiece.unescape_flatMap_text s.pieces false
  rw [literal, Literal.decode_quoted, hread, Option.map_some, Option.some_inj, value,
    String.ofList_inj, LiteralPiece.readAll_eq_iff]

/-- The letter `A` by its code point, with an underscore between the digits. -/
def underscoredLetter : RustString where
  pieces := [.unicode ⟨⟨4, false⟩, [none, some ⟨1, false⟩], by decide, by decide⟩]
  lineEnds := by decide

/-- Two letters with a line end between them, and a no-break space that belongs to the value. -/
def spacedLine : RustString where
  pieces := [.plain 'a' (by decide), .lineEnd [] (List.forall_mem_nil _),
    .plain '\u00a0' (by decide), .plain 'b' (by decide)]
  lineEnds := by decide

/-- An escape with an underscore is not read as one, and a no-break space that begins a line is
skipped as other blanks are. -/
theorem underscore_and_space_are_misread :
    (underscoredLetter.literal = "\"\\u\x7b4_1\x7d\"" ∧ underscoredLetter.value = "A" ∧
      Literal.decode underscoredLetter.literal = some "u\x7b4_1\x7d") ∧
    spacedLine.literal = "\"a\\\n\u00a0b\"" ∧ spacedLine.value = "a\u00a0b" ∧
      Literal.decode spacedLine.literal = some "ab" := by
  decide +kernel

end RustString
end LuaBindings
