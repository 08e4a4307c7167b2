import LuaBindings.Proofs.Token.Respacing

/-!
# What may follow a lexeme

Where a lexeme ends depends on what follows it, in a few ways that `Follows` lists. A
lexeme that makes up a whole text is taken from the front of a longer one just if the
rest may follow it (`next?_append_iff`).
-/

set_option autoImplicit false

namespace LuaBindings.Terminal

/-! ### Terminals by the first character -/

section
variable {c : Char} {text : List Char}

theorem lineComment_eq_none (hc : c ≠ '/') : lineComment (c :: text) = none := by
  unfold lineComment
  split <;> simp_all

theorem blockComment_eq_none (hc : c ≠ '/') : blockComment (c :: text) = none := by
  unfold blockComment
  split <;> simp_all

theorem rawString_eq_none (hr : c ≠ 'r') (hb : c ≠ 'b') : rawString (c :: text) = none := by
  unfold rawString
  split <;> simp_all

theorem string_eq_none (hquote : c ≠ '"') (hb : c ≠ 'b') : string (c :: text) = none := by
  unfold string
  split <;> simp_all

theorem lifetime_eq_none (hc : c ≠ '\'') : lifetime (c :: text) = none := by
  unfold lifetime
  split <;> simp_all

theorem rawName_eq_none (hc : c ≠ 'r') : rawName (c :: text) = none := by
  unfold rawName
  split <;> simp_all

theorem plainName_eq_none (hc : isNameStart c = false) : plainName (c :: text) = none := by
  simp [plainName, word, hc]

theorem ident_eq_none (hc : isNameStart c = false) : ident (c :: text) = none := by
  have hr : c ≠ 'r' := by
    rintro rfl
    exact absurd hc (by decide)
  rw [ident, rawName_eq_none hr, plainName_eq_none hc]
  rfl

theorem number_eq_none (hc : c.isDigit = false) : number (c :: text) = none := by
  simp [number, digits, word, hc]

theorem space_eq_none (hc : isSpace c = false) : space (c :: text) = none := by
  simp [space, word, hc]

theorem punct_eq_none (hc : c ∉ punctChars) : punct (c :: text) = none :=
  punct_eq_none_iff.2 (by simp [hc])

end

/-! ### Which terminal decides

Few terminals begin with the same character, so a terminal decides as soon as these
refuse. -/

section
variable {text : List Char} {split : List Char × List Char}

theorem next?_of_lineComment (h : lineComment text = some split) :
    next? text = some (.lineComment, split) := by
  simp [next?, terminals, h]

theorem next?_of_blockComment (h : blockComment text = some split) :
    next? text = some (.blockComment, split) := by
  have hline : lineComment text = none := by
    unfold blockComment at h
    split at h
    · rfl
    · cases h
  simp [next?, terminals, hline, h]

theorem next?_of_rawString (h : rawString text = some split) :
    next? text = some (.rawString, split) := by
  have hfirst : lineComment text = none ∧ blockComment text = none := by
    unfold rawString at h
    split at h
    · exact ⟨rfl, rfl⟩
    · exact ⟨rfl, rfl⟩
    · cases h
  simp [next?, terminals, hfirst, h]

theorem next?_of_string (h : string text = some split) :
    next? text = some (.string, split) := by
  have hfirst : lineComment text = none ∧ blockComment text = none ∧ rawString text = none := by
    unfold string at h
    split at h
    · exact ⟨rfl, rfl, rfl⟩
    · exact ⟨rfl, rfl, rfl⟩
    · cases h
  simp [next?, terminals, hfirst, h]

theorem next?_of_char (h : char text = some split) : next? text = some (.char, split) := by
  have hfirst : lineComment text = none ∧ blockComment text = none ∧ rawString text = none ∧
      string text = none := by
    unfold char at h
    split at h
    · exact ⟨rfl, rfl, rfl, rfl⟩
    · exact ⟨rfl, rfl, rfl, rfl⟩
    · cases h
  simp [next?, terminals, hfirst, h]

theorem next?_of_lifetime (h : lifetime text = some split) (hchar : char text = none) :
    next? text = some (.lifetime, split) := by
  have hfirst : lineComment text = none ∧ blockComment text = none ∧ rawString text = none ∧
      string text = none := by
    unfold lifetime at h
    split at h
    · exact ⟨rfl, rfl, rfl, rfl⟩
    · cases h
  simp [next?, terminals, hfirst, hchar, h]

theorem exists_nameStart (h : ident text = some split) :
    ∃ c more, text = c :: more ∧ isNameStart c = true := by
  cases text with
  | nil => cases h
  | cons c more =>
    refine ⟨c, more, rfl, ?_⟩
    by_contra hc
    rw [ident_eq_none (Bool.eq_false_iff.2 hc)] at h
    cases h

theorem next?_of_ident (h : ident text = some split) (hraw : rawString text = none)
    (hstring : string text = none) (hchar : char text = none) :
    next? text = some (.ident, split) := by
  obtain ⟨c, more, rfl, hc⟩ := exists_nameStart h
  have hslash : c ≠ '/' := by rintro rfl; exact absurd hc (by decide)
  have hmark : c ≠ '\'' := by rintro rfl; exact absurd hc (by decide)
  simp [next?, terminals, lineComment_eq_none hslash, blockComment_eq_none hslash, hraw, hstring,
    hchar, lifetime_eq_none hmark, h]

theorem isNameStart_eq_false_of_isDigit {c : Char} (h : c.isDigit = true) :
    isNameStart c = false := by
  obtain ⟨_, hnine⟩ := Char.isDigit_iff_toNat.1 h
  have hunder : (c == '_') = false := by
    refine beq_false_of_ne ?_
    rintro rfl
    exact absurd h (by decide)
  have hupper : c.isUpper = false := by
    refine decide_eq_false fun hc => ?_
    have hA : 65 ≤ c.toNat := UInt32.le_iff_toNat_le.1 hc.1
    have h9 : c.toNat ≤ 57 := hnine
    omega
  have hlower : c.isLower = false := by
    refine Bool.and_eq_false_iff.2 (.inl (decide_eq_false fun hc => ?_))
    have ha : 97 ≤ c.toNat := UInt32.le_iff_toNat_le.1 hc
    have h9 : c.toNat ≤ 57 := hnine
    omega
  calc isNameStart c = ((c.isUpper || c.isLower) || c == '_') := rfl
    _ = false := by rw [hupper, hlower, hunder]; rfl

theorem next?_of_number (h : number text = some split) :
    next? text = some (.number, split) := by
  cases text with
  | nil => cases h
  | cons c more =>
    have hc : c.isDigit = true := by
      by_contra hc
      rw [number_eq_none (Bool.eq_false_iff.2 hc)] at h
      cases h
    have hne : ∀ d, d.isDigit = false → c ≠ d := by
      rintro d hd rfl
      rw [hc] at hd
      cases hd
    have hname := isNameStart_eq_false_of_isDigit hc
    simp [next?, terminals, lineComment_eq_none (hne '/' rfl), blockComment_eq_none (hne '/' rfl),
      rawString_eq_none (hne 'r' rfl) (hne 'b' rfl), string_eq_none (hne '"' rfl) (hne 'b' rfl),
      char_eq_none (hne '\'' rfl) fun hb => absurd hb (hne 'b' rfl),
      lifetime_eq_none (hne '\'' rfl), ident_eq_none hname, h]

/-- What begins neither a comment nor a literal, a name or a number. -/
theorem next?_cons_of_mark {c : Char} {more : List Char}
    (hc : c ∉ ['/', 'r', 'b', '"', '\'']) (hname : isNameStart c = false)
    (hdigit : c.isDigit = false) :
    next? (c :: more) = (terminals.drop 8).findSome? fun terminal =>
      (terminal.2 (c :: more)).map fun split => (terminal.1, split) := by
  simp only [List.mem_cons, List.not_mem_nil, or_false, not_or] at hc
  obtain ⟨hslash, hr, hb, hquote, hmark⟩ := hc
  simp [next?, terminals, lineComment_eq_none hslash, blockComment_eq_none hslash,
    rawString_eq_none hr hb, string_eq_none hquote hb, char_eq_none hmark fun h => absurd h hb,
    lifetime_eq_none hmark, ident_eq_none hname, number_eq_none hdigit]

theorem next?_of_space (h : space text = some split) : next? text = some (.space, split) := by
  cases text with
  | nil => cases h
  | cons c more =>
    have hc : isSpace c = true := by
      by_contra hc
      rw [space_eq_none (Bool.eq_false_iff.2 hc)] at h
      cases h
    have hall : ∀ c ∈ [' ', '\t', '\x0c', '\r', '\n'], c ∉ ['/', 'r', 'b', '"', '\''] ∧
        isNameStart c = false ∧ c.isDigit = false := by
      rw [← List.forall_iff_forall_mem]
      decide
    obtain ⟨hmark, hname, hdigit⟩ := hall c (of_decide_eq_true hc)
    rw [next?_cons_of_mark hmark hname hdigit]
    simp [terminals, h]

theorem next?_of_punct (h : punct text = some split) (hline : lineComment text = none)
    (hblock : blockComment text = none) : next? text = some (.punct, split) := by
  cases text with
  | nil => cases h
  | cons c more =>
    have hc : c ∈ punctChars := by
      by_contra hc
      rw [punct_eq_none hc] at h
      cases h
    have hall : ∀ c ∈ punctChars, c ≠ 'r' ∧ c ≠ 'b' ∧ c ≠ '"' ∧ c ≠ '\'' ∧
        isNameStart c = false ∧ c.isDigit = false ∧ isSpace c = false := by
      rw [← List.forall_iff_forall_mem]
      decide
    obtain ⟨hr, hb, hquote, hmark, hname, hdigit, hspace⟩ := hall c hc
    simp [next?, terminals, hline, hblock, rawString_eq_none hr hb, string_eq_none hquote hb,
      char_eq_none hmark fun h => absurd h hb, lifetime_eq_none hmark, ident_eq_none hname,
      number_eq_none hdigit, space_eq_none hspace, h]

def delimiters : List (TokenKind × Char) :=
  [(.opener .paren, '('), (.closer .paren, ')'), (.opener .bracket, '['),
    (.closer .bracket, ']'), (.opener .brace, '\x7b'), (.closer .brace, '\x7d')]

theorem next?_of_delimiter {kind : TokenKind} {c : Char} (h : (kind, c) ∈ delimiters)
    (more : List Char) : next? (c :: more) = some (kind, [c], more) := by
  have hall : ∀ delimiter ∈ delimiters, delimiter.2 ∉ ['/', 'r', 'b', '"', '\''] ∧
      isNameStart delimiter.2 = false ∧ delimiter.2.isDigit = false := by decide
  obtain ⟨hmark, hname, hdigit⟩ := hall _ h
  rw [next?_cons_of_mark hmark hname hdigit]
  simp only [delimiters, List.mem_cons, List.not_mem_nil, or_false, Prod.mk.injEq] at h
  rcases h with ⟨rfl, rfl⟩ | ⟨rfl, rfl⟩ | ⟨rfl, rfl⟩ | ⟨rfl, rfl⟩ | ⟨rfl, rfl⟩ | ⟨rfl, rfl⟩ <;>
    cases more <;> simp [terminals, space, word, isSpace, punct, punctPairs, punctChars, single]

end

def ofKind : TokenKind → Recogniser
  | .lineComment => lineComment
  | .blockComment => blockComment
  | .rawString => rawString
  | .string => string
  | .char => char
  | .lifetime => lifetime
  | .ident => ident
  | .number => number
  | .space => space
  | .punct => punct
  | .opener .paren => single '('
  | .closer .paren => single ')'
  | .opener .bracket => single '['
  | .closer .bracket => single ']'
  | .opener .brace => single '\x7b'
  | .closer .brace => single '\x7d'

theorem ofKind_of_mem : ∀ terminal ∈ terminals, ofKind terminal.1 = terminal.2 := by
  simp only [terminals, List.forall_mem_cons, List.not_mem_nil, false_implies, implies_true,
    and_true]
  exact ⟨rfl, rfl, rfl, rfl, rfl, rfl, rfl, rfl, rfl, rfl, rfl, rfl, rfl, rfl, rfl, rfl⟩

section
variable {kind : TokenKind} {text : List Char} {split : List Char × List Char}
  (h : next? text = some (kind, split))
include h

theorem ofKind_of_next? : ofKind kind text = some split := by
  obtain ⟨f, hmem, hsplit⟩ := exists_terminal h
  rw [ofKind_of_mem _ hmem]
  exact hsplit

theorem lineComment_of_next?_ne (hne : kind ≠ .lineComment) : lineComment text = none := by
  cases hsome : lineComment text with
  | none => rfl
  | some split =>
    rw [next?_of_lineComment hsome] at h
    cases h
    exact absurd rfl hne

theorem blockComment_of_next?_ne (hne : kind ≠ .blockComment) : blockComment text = none := by
  cases hsome : blockComment text with
  | none => rfl
  | some split =>
    rw [next?_of_blockComment hsome] at h
    cases h
    exact absurd rfl hne

theorem rawString_of_next?_ne (hne : kind ≠ .rawString) : rawString text = none := by
  cases hsome : rawString text with
  | none => rfl
  | some split =>
    rw [next?_of_rawString hsome] at h
    cases h
    exact absurd rfl hne

theorem string_of_next?_ne (hne : kind ≠ .string) : string text = none := by
  cases hsome : string text with
  | none => rfl
  | some split =>
    rw [next?_of_string hsome] at h
    cases h
    exact absurd rfl hne

theorem char_of_next?_ne (hne : kind ≠ .char) : char text = none := by
  cases hsome : char text with
  | none => rfl
  | some split =>
    rw [next?_of_char hsome] at h
    cases h
    exact absurd rfl hne

end

/-! ### Lexemes that look ahead -/

section
variable {lexeme rest : List Char}

def isName : List Char → Bool
  | [] => false
  | c :: name => isNameStart c && name.all isNameChar

def isDigits : List Char → Bool
  | [] => false
  | c :: more => c.isDigit && more.all isNameChar

theorem run_append_iff {p : Char → Bool} :
    run p (lexeme ++ rest) = (lexeme, rest) ↔
      lexeme.all p = true ∧ ∀ c ∈ rest.head?, p c = false := by
  constructor
  · intro h
    refine ⟨List.all_eq_true.2 fun c hc => ?_, head_not_of_run h⟩
    have htake : (lexeme ++ rest).takeWhile p = lexeme := congrArg Prod.fst h
    rw [← htake] at hc
    exact List.mem_takeWhile_imp hc
  · exact fun ⟨hlexeme, hrest⟩ => run_eq_of_append (List.all_eq_true.1 hlexeme) hrest

theorem plainName_append_iff :
    plainName (lexeme ++ rest) = some (lexeme, rest) ↔
      isName lexeme = true ∧ ∀ c ∈ rest.head?, isNameChar c = false := by
  cases lexeme with
  | nil =>
    simp only [isName, Bool.false_eq_true, false_and, iff_false]
    exact fun h => absurd rfl (plainName_sound _ _ _ h).2
  | cons c name =>
    rw [List.cons_append, plainName, word, isName, Bool.and_eq_true, and_assoc, ← run_append_iff]
    by_cases hc : isNameStart c = true
    · rw [if_pos hc]
      constructor
      · exact fun h => ⟨hc, Option.some.inj (eq_of_prepend_append [c] h)⟩
      · exact fun h => prepend_append (congrArg some h.2)
    · simp [hc]

theorem digits_append_iff :
    digits (lexeme ++ rest) = some (lexeme, rest) ↔
      isDigits lexeme = true ∧ ∀ c ∈ rest.head?, isNameChar c = false := by
  cases lexeme with
  | nil =>
    simp only [isDigits, Bool.false_eq_true, false_and, iff_false]
    exact fun h => absurd rfl (digits_sound _ _ _ h).2
  | cons c more =>
    rw [List.cons_append, digits, word, isDigits, Bool.and_eq_true, and_assoc, ← run_append_iff]
    by_cases hc : c.isDigit = true
    · rw [if_pos hc]
      constructor
      · exact fun h => ⟨hc, Option.some.inj (eq_of_prepend_append [c] h)⟩
      · exact fun h => prepend_append (congrArg some h.2)
    · simp [hc]

theorem rawName_append_iff :
    rawName (lexeme ++ rest) = some (lexeme, rest) ↔
      (∃ name, lexeme = 'r' :: '#' :: name ∧ isName name = true) ∧
        ∀ c ∈ rest.head?, isNameChar c = false := by
  constructor
  · intro h
    unfold rawName at h
    split at h
    · obtain ⟨name, hsplit, rfl⟩ := prepend_eq_some h
      rw [← plainName_sound.splits _ _ _ hsplit] at hsplit
      obtain ⟨hname, hrest⟩ := plainName_append_iff.1 hsplit
      exact ⟨⟨name, rfl, hname⟩, hrest⟩
    · cases h
  · rintro ⟨⟨name, rfl, hname⟩, hrest⟩
    exact prepend_append (plainName_append_iff.2 ⟨hname, hrest⟩)

theorem lifetime_append_iff :
    lifetime (lexeme ++ rest) = some (lexeme, rest) ↔
      (∃ name, lexeme = '\'' :: name ∧ isName name = true) ∧
        ∀ c ∈ rest.head?, isNameChar c = false := by
  constructor
  · intro h
    unfold lifetime at h
    split at h
    · obtain ⟨name, hsplit, rfl⟩ := prepend_eq_some h
      rw [← plainName_sound.splits _ _ _ hsplit] at hsplit
      obtain ⟨hname, hrest⟩ := plainName_append_iff.1 hsplit
      exact ⟨⟨name, rfl, hname⟩, hrest⟩
    · cases h
  · rintro ⟨⟨name, rfl, hname⟩, hrest⟩
    exact prepend_append (plainName_append_iff.2 ⟨hname, hrest⟩)

/-- A name, with `r#` before it or not. Only the single letter `r` has to be kept from
being taken for the prefix of a raw name. -/
theorem ident_append_iff :
    ident (lexeme ++ rest) = some (lexeme, rest) ↔
      ((∃ name, lexeme = 'r' :: '#' :: name ∧ isName name = true) ∨ isName lexeme = true) ∧
        (∀ c ∈ rest.head?, isNameChar c = false) ∧
          (lexeme = ['r'] → rawName ('r' :: rest) = none) := by
  constructor
  · intro h
    rcases Option.or_eq_some_iff.1 h with hraw | ⟨hraw, hplain⟩
    · obtain ⟨⟨name, rfl, hname⟩, hrest⟩ := rawName_append_iff.1 hraw
      exact ⟨.inl ⟨name, rfl, hname⟩, hrest, by simp⟩
    · obtain ⟨hname, hrest⟩ := plainName_append_iff.1 hplain
      exact ⟨.inr hname, hrest, by rintro rfl; exact hraw⟩
  · rintro ⟨hname | hname, hrest, hr⟩
    · rw [ident, rawName_append_iff.2 ⟨hname, hrest⟩]
      rfl
    · have hraw : rawName (lexeme ++ rest) = none := by
        cases lexeme with
        | nil => cases hname
        | cons c name =>
          by_cases hc : c = 'r'
          · subst hc
            cases name with
            | nil => exact hr rfl
            | cons d name =>
              have hd : isNameChar d = true := by
                simp only [isName, List.all_cons, Bool.and_eq_true] at hname
                exact hname.2.1
              have hhash : d ≠ '#' := by rintro rfl; exact absurd hd (by decide)
              simp [rawName, hhash]
          · exact rawName_eq_none hc
      rw [ident, hraw, plainName_append_iff.2 ⟨hname, hrest⟩]
      rfl

theorem number_append_iff :
    number (lexeme ++ rest) = some (lexeme, rest) ↔
      (∀ c ∈ rest.head?, isNameChar c = false) ∧
        ((isDigits lexeme = true ∧ fraction rest = none) ∨
          ∃ whole more, lexeme = whole ++ '.' :: more ∧ isDigits whole = true ∧
            isDigits more = true) := by
  constructor
  · intro h
    unfold number at h
    split at h
    · cases h
    · rename_i whole after hwhole
      obtain ⟨tail, hsplit, rfl⟩ := prepend_eq_some h
      have hsplits := optionalFraction_splits _ _ _ hsplit
      rw [← hsplits] at hsplit hwhole
      rw [List.append_assoc] at hwhole
      obtain ⟨hdigits, hafter⟩ := digits_append_iff.1 hwhole
      rcases Option.or_eq_some_iff.1 hsplit with hfraction | ⟨hnone, hempty⟩
      · unfold fraction at hfraction
        split at hfraction
        · obtain ⟨more, hmore, rfl⟩ := prepend_eq_some hfraction
          rw [← digits_sound.splits _ _ _ hmore] at hmore
          obtain ⟨hmore, hrest⟩ := digits_append_iff.1 hmore
          exact ⟨hrest, .inr ⟨whole, more, rfl, hdigits, hmore⟩⟩
        · cases hfraction
      · cases hempty
        rw [List.append_nil]
        exact ⟨hafter, .inl ⟨hdigits, hnone⟩⟩
  · rintro ⟨hrest, ⟨hdigits, hnone⟩ | ⟨whole, more, rfl, hwhole, hmore⟩⟩
    · rw [number, digits_append_iff.2 ⟨hdigits, hrest⟩]
      change prepend lexeme ((fraction rest).or (some ([], rest))) = _
      rw [hnone]
      exact congrArg some (by rw [List.append_nil])
    · have hpoint : ∀ c ∈ ('.' :: (more ++ rest)).head?, isNameChar c = false := by
        simp
        decide
      have hfraction : fraction ('.' :: (more ++ rest)) = some ('.' :: more, rest) :=
        @prepend_append ['.'] _ _ _ (digits_append_iff.2 ⟨hmore, hrest⟩)
      rw [List.append_assoc, List.cons_append, number, digits_append_iff.2 ⟨hwhole, hpoint⟩]
      change prepend whole ((fraction ('.' :: (more ++ rest))).or _) = _
      rw [hfraction]
      rfl

theorem punct_append_iff :
    punct (lexeme ++ rest) = some (lexeme, rest) ↔
      (∃ c d, lexeme = [c, d] ∧ (c, d) ∈ punctPairs) ∨
        ∃ c, lexeme = [c] ∧ c ∈ punctChars ∧ ∀ d ∈ rest.head?, (c, d) ∉ punctPairs := by
  constructor
  · intro h
    unfold punct at h
    split at h
    · rename_i c d after htext
      split at h
      · rename_i hpair
        cases h
        exact .inl ⟨c, d, rfl, hpair⟩
      · rename_i hpair
        split at h
        · rename_i hc
          cases h
          exact .inr ⟨c, rfl, hc, by simpa using hpair⟩
        · cases h
    · rename_i c htext
      split at h
      · rename_i hc
        cases h
        exact .inr ⟨c, rfl, hc, by simp⟩
      · cases h
    · cases h
  · rintro (⟨c, d, rfl, hpair⟩ | ⟨c, rfl, hc, hrest⟩)
    · simp [punct, hpair]
    · exact punct_one hc hrest

/-! ### Where a quoted string closes -/

/-- The first quote that no backslash stands before is the last character. -/
def closesFirmly : List Char → Bool
  | [] => false
  | '"' :: rest => rest.isEmpty
  | ['\\'] => false
  | '\\' :: _ :: rest => closesFirmly rest
  | _ :: rest => closesFirmly rest

theorem throughQuote_ne_nil {text : List Char} (h : throughQuote text = some (lexeme, rest)) :
    lexeme ≠ [] := by
  rintro rfl
  unfold throughQuote at h
  split at h
  · cases h
  · cases h
  · cases h
  · split at h
    · cases h
    · split at h
      · cases h
      · cases h
  · obtain ⟨tail, _, heq⟩ := prepend_eq_some h
    cases heq

theorem throughQuote_escape_iff {c : Char} {body : List Char} :
    throughQuote ('\\' :: c :: (body ++ rest)) = some ('\\' :: c :: body, rest) ↔
      throughQuote (body ++ rest) = some (body, rest) ∨ (body = [] ∧ c = '"' ∧ '"' ∉ rest) := by
  rw [throughQuote]
  cases hsplit : throughQuote (body ++ rest) with
  | some split =>
    obtain ⟨lexeme, after⟩ := split
    have hquote : ¬ (body = [] ∧ c = '"' ∧ '"' ∉ rest) := by
      rintro ⟨rfl, _, hnone⟩
      rw [List.nil_append, (throughQuote_eq_none_iff rest).2 hnone] at hsplit
      cases hsplit
    rw [or_iff_left hquote]
    simp
  | none =>
    have hnone := (throughQuote_eq_none_iff _).1 hsplit
    simp only [reduceCtorEq, false_or]
    constructor
    · intro h
      split at h
      · rename_i hc
        simp only [Option.some.injEq, Prod.mk.injEq, List.cons.injEq, true_and] at h
        have hbody : body = [] := h.1.2.symm
        rw [hbody] at hnone
        exact ⟨hbody, hc, hnone⟩
      · cases h
    · rintro ⟨rfl, rfl, _⟩
      rfl

/-- A later quote matters only to a string whose closing quote stands behind a backslash. -/
theorem throughQuote_append_iff {body : List Char} :
    throughQuote (body ++ rest) = some (body, rest) ↔
      throughQuote body = some (body, []) ∧ ('"' ∈ rest → closesFirmly body = true) := by
  fun_induction closesFirmly body with
  | case1 => exact ⟨fun h => absurd rfl (throughQuote_ne_nil h), fun h => by cases h.1⟩
  | case2 body =>
    cases body <;> simp [throughQuote]
  | case3 =>
    refine ⟨fun h => ?_, fun h => by cases h.1⟩
    cases rest with
    | nil => cases h
    | cons c rest =>
      rw [List.singleton_append, throughQuote] at h
      split at h
      · cases h
      · split at h
        · cases h
        · cases h
  | case4 c body ih =>
    have halone := @throughQuote_escape_iff [] c body
    rw [List.append_nil] at halone
    rw [List.cons_append, List.cons_append, throughQuote_escape_iff, halone, ih]
    by_cases hbody : body = []
    · subst hbody
      simp [throughQuote, closesFirmly]
    · simp [hbody]
  | case5 c body hquote hlast hslash ih =>
    have hc : c ≠ '\\' := by
      intro hc
      cases body with
      | nil => exact hlast hc rfl
      | cons d body => exact hslash d body hc rfl
    have hcancel : ∀ after, prepend [c] (throughQuote (body ++ after)) = some (c :: body, after) ↔
        throughQuote (body ++ after) = some (body, after) := fun after =>
      ⟨eq_of_prepend_append [c], prepend_append⟩
    have halone := hcancel []
    rw [List.append_nil] at halone
    rw [List.cons_append, throughQuote_plain hquote hc, throughQuote_plain hquote hc, hcancel,
      halone, ih]

/-- A quoted string whose closing quote closes it whatever follows. -/
def isFirm : List Char → Bool
  | 'b' :: '"' :: body => closesFirmly body
  | '"' :: body => closesFirmly body
  | _ => false

theorem string_append_iff_exists :
    string (lexeme ++ rest) = some (lexeme, rest) ↔
      ∃ front ∈ [['b', '"'], ['"']], ∃ body, lexeme = front ++ body ∧
        throughQuote (body ++ rest) = some (body, rest) := by
  constructor
  · intro h
    unfold string at h
    split at h
    · obtain ⟨body, hsplit, rfl⟩ := prepend_eq_some h
      rw [← throughQuote_splits _ _ _ hsplit] at hsplit
      exact ⟨['b', '"'], by simp, body, rfl, hsplit⟩
    · obtain ⟨body, hsplit, rfl⟩ := prepend_eq_some h
      rw [← throughQuote_splits _ _ _ hsplit] at hsplit
      exact ⟨['"'], by simp, body, rfl, hsplit⟩
    · cases h
  · rintro ⟨front, hfront, body, rfl, hbody⟩
    simp only [List.mem_cons, List.not_mem_nil, or_false] at hfront
    rcases hfront with rfl | rfl
    · exact prepend_append hbody
    · exact prepend_append hbody

theorem string_append_iff :
    string (lexeme ++ rest) = some (lexeme, rest) ↔
      string lexeme = some (lexeme, []) ∧ ('"' ∈ rest → isFirm lexeme = true) := by
  have halone := @string_append_iff_exists lexeme []
  have hfirm : ∀ front ∈ [['b', '"'], ['"']], ∀ body,
      isFirm (front ++ body) = closesFirmly body := by
    simp [isFirm]
  rw [List.append_nil] at halone
  rw [string_append_iff_exists, halone]
  constructor
  · rintro ⟨front, hfront, body, rfl, hbody⟩
    obtain ⟨hbody, hcloses⟩ := throughQuote_append_iff.1 hbody
    rw [hfirm front hfront]
    exact ⟨⟨front, hfront, body, rfl, by rwa [List.append_nil]⟩, hcloses⟩
  · rintro ⟨⟨front, hfront, body, rfl, hbody⟩, hcloses⟩
    rw [hfirm front hfront] at hcloses
    rw [List.append_nil] at hbody
    exact ⟨front, hfront, body, rfl, throughQuote_append_iff.2 ⟨hbody, hcloses⟩⟩

/-! ### What may follow -/

/-- The rest does not change where a lexeme of a kind ends, and leads to no terminal that
is tried earlier. -/
def Follows (kind : TokenKind) (lexeme rest : List Char) : Prop :=
  match kind with
  | .lineComment => ∀ c ∈ rest.head?, c = '\n'
  | .space => ∀ c ∈ rest.head?, isSpace c = false
  | .string => '"' ∈ rest → isFirm lexeme = true
  | .lifetime =>
    (∀ c ∈ rest.head?, isNameChar c = false) ∧ (lexeme.length = 2 → ∀ c ∈ rest.head?, c ≠ '\'')
  | .ident =>
    (∀ c ∈ rest.head?, isNameChar c = false) ∧
      (lexeme = ['r'] → fenced rest = none ∧ rawName ('r' :: rest) = none) ∧
      (lexeme = ['b', 'r'] → fenced rest = none) ∧
      (lexeme = ['b'] → string ('b' :: rest) = none ∧ char ('b' :: rest) = none)
  | .number =>
    (∀ c ∈ rest.head?, isNameChar c = false) ∧ ('.' ∉ lexeme → fraction rest = none)
  | .punct =>
    (∀ c, lexeme = [c] → ∀ d ∈ rest.head?, (c, d) ∉ punctPairs) ∧
      (lexeme = ['/'] → (∀ d ∈ rest.head?, d ≠ '/') ∧ blockComment ('/' :: rest) = none)
  | _ => True

/-! ### Names and the prefixes of literals -/

theorem fenced_hashes_eq_none (hashes : List Char) {text : List Char} {c : Char}
    (hhashes : ∀ d ∈ hashes, (d == '#') = true) (hc : isNameChar c = true) :
    fenced (hashes ++ c :: text) = none := by
  have hhash : (c == '#') = false := by
    refine beq_false_of_ne ?_
    rintro rfl
    cases hc
  rw [fenced, run_eq_of_append hhashes (by simpa using hhash)]
  split
  · rename_i heq
    cases heq
    cases hc
  · rfl

theorem fenced_name_eq_none {text : List Char} {c : Char} (hc : isNameChar c = true) :
    fenced (c :: text) = none :=
  fenced_hashes_eq_none [] (by simp) hc

section
variable {name : List Char} (hname : isName name = true)
  (hrest : ∀ c ∈ rest.head?, isNameChar c = false)
include hname

theorem exists_of_isName : ∃ c more, name = c :: more ∧ isNameStart c = true ∧
    ∀ d ∈ more, isNameChar d = true := by
  cases name with
  | nil => cases hname
  | cons c more =>
    rw [isName, Bool.and_eq_true] at hname
    exact ⟨c, more, rfl, hname.1, List.all_eq_true.1 hname.2⟩

theorem string_name_eq_none (hb : name = ['b'] → string ('b' :: rest) = none) :
    string (name ++ rest) = none := by
  obtain ⟨c, more, rfl, hc, hmore⟩ := exists_of_isName hname
  have hquote : c ≠ '"' := by rintro rfl; exact absurd hc (by decide)
  by_cases hcb : c = 'b'
  · subst hcb
    cases more with
    | nil => exact hb rfl
    | cons d more =>
      have hd : d ≠ '"' := by
        rintro rfl
        exact absurd (hmore _ List.mem_cons_self) (by decide)
      simp [string, hd]
  · exact string_eq_none hquote hcb

theorem char_name_prefix_eq_none (hb : name = ['b'] → char ('b' :: rest) = none) :
    char (name ++ rest) = none := by
  obtain ⟨c, more, rfl, hc, hmore⟩ := exists_of_isName hname
  have hmark : c ≠ '\'' := by rintro rfl; exact absurd hc (by decide)
  cases more with
  | nil =>
    by_cases hcb : c = 'b'
    · subst hcb
      exact hb rfl
    · exact char_eq_none hmark fun h => absurd h hcb
  | cons d more =>
    refine char_eq_none hmark fun _ e he => ?_
    cases he
    rintro rfl
    exact absurd (hmore _ List.mem_cons_self) (by decide)

include hrest in
theorem rawString_name_eq_none (hr : name = ['r'] → fenced rest = none)
    (hbr : name = ['b', 'r'] → fenced rest = none) : rawString (name ++ rest) = none := by
  obtain ⟨c, more, rfl, hc, hmore⟩ := exists_of_isName hname
  by_cases hcr : c = 'r'
  · subst hcr
    refine prepend_eq_none_iff.2 ?_
    cases more with
    | nil => exact hr rfl
    | cons d more => exact fenced_name_eq_none (hmore d List.mem_cons_self)
  by_cases hcb : c = 'b'
  · subst hcb
    cases more with
    | nil =>
      unfold rawString
      split
      · rename_i heq
        cases heq
        exact absurd (hrest 'r' rfl) (by decide)
      · rename_i heq
        cases heq
      · rfl
    | cons d more =>
      by_cases hd : d = 'r'
      · subst hd
        refine prepend_eq_none_iff.2 ?_
        cases more with
        | nil => exact hbr rfl
        | cons e more =>
          exact fenced_name_eq_none (hmore e (List.mem_cons_of_mem _ List.mem_cons_self))
      · simp [rawString, hd]
  · exact rawString_eq_none hcr hcb

end

/-! ### A lexeme before the rest -/

theorem follows_of_next? {kind : TokenKind} (h : next? (lexeme ++ rest) = some (kind, lexeme, rest)) :
    Follows kind lexeme rest := by
  have hkind := ofKind_of_next? h
  cases kind with
  | lineComment => exact head_of_lineComment hkind
  | space => exact head_of_space hkind
  | string => exact (string_append_iff.1 hkind).2
  | lifetime =>
    have hchar := char_of_next?_ne h nofun
    obtain ⟨⟨name, rfl, hname⟩, hrest⟩ := lifetime_append_iff.1 hkind
    refine ⟨hrest, fun hlength => ?_⟩
    obtain ⟨c, more, rfl, hc, _⟩ := exists_of_isName hname
    cases more with
    | nil => simpa using (char_name_eq_none_iff hc).1 hchar
    | cons d more => simp at hlength
  | ident =>
    obtain ⟨_, hrest, hr⟩ := ident_append_iff.1 hkind
    have hraw := rawString_of_next?_ne h nofun
    refine ⟨hrest, fun heq => ⟨?_, hr heq⟩, fun heq => ?_, fun heq => ?_⟩
    · rw [heq] at hraw
      exact prepend_eq_none_iff.1 hraw
    · rw [heq] at hraw
      exact prepend_eq_none_iff.1 hraw
    · have hstring := string_of_next?_ne h nofun
      have hchar := char_of_next?_ne h nofun
      rw [heq] at hstring hchar
      exact ⟨hstring, hchar⟩
  | number =>
    obtain ⟨hrest, hdigits⟩ := number_append_iff.1 hkind
    refine ⟨hrest, fun hpoint => ?_⟩
    rcases hdigits with ⟨_, hnone⟩ | ⟨whole, more, rfl, _⟩
    · exact hnone
    · simp at hpoint
  | punct =>
    have hline := lineComment_of_next?_ne h nofun
    have hblock := blockComment_of_next?_ne h nofun
    constructor
    · rintro c rfl
      rcases punct_append_iff.1 hkind with ⟨_, _, heq, _⟩ | ⟨_, heq, _, hpairs⟩
      · simp at heq
      · cases heq
        exact hpairs
    · rintro rfl
      refine ⟨?_, hblock⟩
      rintro d hd rfl
      cases rest with
      | nil => cases hd
      | cons c rest =>
        cases hd
        cases hline
  | _ => trivial

theorem point_not_mem_of_isDigits (h : isDigits lexeme = true) : '.' ∉ lexeme := by
  cases lexeme with
  | nil => simp
  | cons c more =>
    rw [isDigits, Bool.and_eq_true, List.all_eq_true] at h
    intro hmem
    rcases List.mem_cons.1 hmem with hc | hmore
    · rw [← hc] at h
      exact absurd h.1 (by decide)
    · exact absurd (h.2 _ hmore) (by decide)

theorem eq_of_single {mark : Char} {text : List Char}
    (h : single mark text = some (lexeme, rest)) : lexeme = [mark] := by
  unfold single at h
  split at h
  · split at h
    · cases h
      rfl
    · cases h
  · cases h

/-- The lexeme of a delimiter is its mark. -/
theorem exists_delimiter {kind : TokenKind} (hmem : kind ∈ delimiters.map Prod.fst)
    {text : List Char} (h : ofKind kind text = some (lexeme, rest)) :
    ∃ c, (kind, c) ∈ delimiters ∧ lexeme = [c] := by
  simp only [delimiters, List.map_cons, List.map_nil, List.mem_cons, List.not_mem_nil,
    or_false] at hmem
  rcases hmem with rfl | rfl | rfl | rfl | rfl | rfl <;>
    exact ⟨_, by simp [delimiters], eq_of_single h⟩

theorem next?_of_follows {kind : TokenKind} (h : next? lexeme = some (kind, lexeme, []))
    (hrest : Follows kind lexeme rest) : next? (lexeme ++ rest) = some (kind, lexeme, rest) := by
  have halone : next? (lexeme ++ []) = some (kind, lexeme, []) := by rwa [List.append_nil]
  have hkind : ofKind kind (lexeme ++ []) = some (lexeme, []) := ofKind_of_next? halone
  cases kind with
  | lineComment => exact next?_of_lineComment (lineComment_keeps hrest hkind)
  | blockComment => exact next?_of_blockComment (blockComment_keeps rest hkind)
  | rawString => exact next?_of_rawString (rawString_keeps rest hkind)
  | string =>
    rw [List.append_nil] at hkind
    exact next?_of_string (string_append_iff.2 ⟨hkind, hrest⟩)
  | char => exact next?_of_char (char_keeps rest hkind)
  | space => exact next?_of_space (space_keeps hrest hkind)
  | lifetime =>
    obtain ⟨hhead, hmark⟩ := hrest
    obtain ⟨⟨name, rfl, hname⟩, _⟩ := lifetime_append_iff.1 hkind
    have hlifetime := lifetime_append_iff.2 ⟨⟨name, rfl, hname⟩, hhead⟩
    obtain ⟨c, more, rfl, hc, hmore⟩ := exists_of_isName hname
    refine next?_of_lifetime hlifetime ((char_name_eq_none_iff hc).2 ?_)
    cases more with
    | nil => simpa using hmark rfl
    | cons d more =>
      have hd : d ≠ '\'' := by
        rintro rfl
        exact absurd (hmore _ List.mem_cons_self) (by decide)
      simpa using hd
  | ident =>
    obtain ⟨hhead, hr, hbr, hb⟩ := hrest
    obtain ⟨hname, _⟩ := ident_append_iff.1 hkind
    have hident := ident_append_iff.2 ⟨hname, hhead, fun heq => (hr heq).2⟩
    rcases hname with ⟨name, rfl, hname⟩ | hname
    · obtain ⟨c, more, rfl, hc, _⟩ := exists_of_isName hname
      refine next?_of_ident hident (prepend_eq_none_iff.2 ?_) rfl rfl
      exact fenced_hashes_eq_none ['#'] (by simp) (isNameChar_of_isNameStart hc)
    · exact next?_of_ident hident
        (rawString_name_eq_none hname hhead (fun heq => (hr heq).1) hbr)
        (string_name_eq_none hname fun heq => (hb heq).1)
        (char_name_prefix_eq_none hname fun heq => (hb heq).2)
  | number =>
    obtain ⟨hhead, hpoint⟩ := hrest
    obtain ⟨_, hdigits⟩ := number_append_iff.1 hkind
    refine next?_of_number (number_append_iff.2 ⟨hhead, ?_⟩)
    rcases hdigits with ⟨hdigits, _⟩ | hfraction
    · exact .inl ⟨hdigits, hpoint (point_not_mem_of_isDigits hdigits)⟩
    · exact .inr hfraction
  | punct =>
    obtain ⟨hpairs, hslash⟩ := hrest
    have hline := lineComment_of_next?_ne h nofun
    have hblock := blockComment_of_next?_ne h nofun
    rcases punct_append_iff.1 hkind with ⟨c, d, rfl, hpair⟩ | ⟨c, rfl, hc, _⟩
    · have hne : ∀ pair ∈ punctPairs, pair.1 ≠ '/' := by decide
      have hpunct : punct ([c, d] ++ rest) = some ([c, d], rest) :=
        punct_append_iff.2 (.inl ⟨c, d, rfl, hpair⟩)
      exact next?_of_punct hpunct (lineComment_eq_none (hne _ hpair))
        (blockComment_eq_none (hne _ hpair))
    · have hpunct := punct_append_iff.2 (.inr ⟨c, rfl, hc, hpairs c rfl⟩)
      by_cases hcs : c = '/'
      · subst hcs
        obtain ⟨hhead, hnone⟩ := hslash rfl
        refine next?_of_punct hpunct ?_ hnone
        cases rest with
        | nil => rfl
        | cons d rest =>
          have hd := hhead d rfl
          simp [lineComment, hd]
      · exact next?_of_punct hpunct (lineComment_eq_none hcs) (blockComment_eq_none hcs)
  | opener d =>
    obtain ⟨c, hc, rfl⟩ := exists_delimiter (by cases d <;> simp [delimiters]) hkind
    exact next?_of_delimiter hc rest
  | closer d =>
    obtain ⟨c, hc, rfl⟩ := exists_delimiter (by cases d <;> simp [delimiters]) hkind
    exact next?_of_delimiter hc rest

/-- A lexeme makes up a text of its own and the rest may follow it, just if it is taken from
the front of both together. -/
theorem next?_append_iff {kind : TokenKind} :
    next? (lexeme ++ rest) = some (kind, lexeme, rest) ↔
      next? lexeme = some (kind, lexeme, []) ∧ Follows kind lexeme rest := by
  refine ⟨fun h => ⟨?_, follows_of_next? h⟩, fun h => next?_of_follows h.1 h.2⟩
  have halone := next?_respaced h (.stop rest) (by simp) (by simp)
  rwa [List.append_nil] at halone

end
end LuaBindings.Terminal
