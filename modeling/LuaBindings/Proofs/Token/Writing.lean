import LuaBindings.Proofs.Literal.Rereading
import LuaBindings.Proofs.Token.Spelling

/-!
# Writing one text behind another

Two texts that are written one behind the other keep their tokens if the second begins
with a character that no token goes on with, and the first has only tokens about which
the character behind them decides (`Written.append`).
-/

set_option autoImplicit false

namespace LuaBindings

namespace Terminal

/-- Blanks, delimiters and the marks that end parts of lists and statements. -/
def boundaries : List Char :=
  [' ', '\t', '\x0c', '\r', '\n', ',', ';', '(', ')', '[', ']', '\x7b', '\x7d']

/-- The text is empty or begins with a character that no token before it goes on with. -/
def Bounded (text : List Char) : Prop := ∀ c ∈ text.head?, c ∈ boundaries

theorem bounded_nil : Bounded [] := by simp [Bounded]

theorem bounded_cons {c : Char} (hc : c ∈ boundaries) (text : List Char) :
    Bounded (c :: text) := by
  rintro d hd
  cases hd
  exact hc

theorem bounded_blank {c : Char} (hc : isSpace c = true) (text : List Char) :
    Bounded (c :: text) := by
  refine bounded_cons ?_ text
  simp only [isSpace, List.mem_cons, List.not_mem_nil, or_false, decide_eq_true_eq] at hc
  rcases hc with rfl | rfl | rfl | rfl | rfl <;> decide

theorem Bounded.not_name {rest : List Char} (h : Bounded rest) :
    ∀ c ∈ rest.head?, isNameChar c = false := fun c hc => by
  have hall : boundaries.all (!isNameChar ·) = true := by decide
  simpa using List.all_eq_true.1 hall c (h c hc)

theorem Bounded.ne {rest : List Char} (h : Bounded rest) {mark : Char}
    (hmark : mark ∉ boundaries) : ∀ c ∈ rest.head?, c ≠ mark := by
  rintro c hc rfl
  exact hmark (h c hc)

/-! ### What looks for a prefix -/

section
variable {rest : List Char}

theorem fenced_eq_none (hhash : ∀ c ∈ rest.head?, c ≠ '#') (hquote : ∀ c ∈ rest.head?, c ≠ '"') :
    fenced rest = none := by
  cases rest with
  | nil => rfl
  | cons c rest =>
    have hc := hhash c rfl
    have hrun : run (· == '#') (c :: rest) = ([], c :: rest) := by simp [run, hc]
    rw [fenced, hrun]
    simp [hquote c rfl]

theorem rawName_prefix_eq_none (hhash : ∀ c ∈ rest.head?, c ≠ '#') :
    rawName ('r' :: rest) = none := by
  cases rest with
  | nil => rfl
  | cons c rest => simp [rawName, hhash c rfl]

theorem string_prefix_eq_none (hquote : ∀ c ∈ rest.head?, c ≠ '"') :
    string ('b' :: rest) = none := by
  cases rest with
  | nil => rfl
  | cons c rest => simp [string, hquote c rfl]

theorem fraction_eq_none (hpoint : ∀ c ∈ rest.head?, c ≠ '.') : fraction rest = none := by
  cases rest with
  | nil => rfl
  | cons c rest => simp [fraction, hpoint c rfl]

theorem blockComment_prefix_eq_none (hstar : ∀ c ∈ rest.head?, c ≠ '*') :
    blockComment ('/' :: rest) = none := by
  cases rest with
  | nil => rfl
  | cons c rest => simp [blockComment, hstar c rfl]

/-- Behind an identifier anything may follow that neither goes on with it nor begins a literal. -/
theorem follows_ident (lexeme : List Char) (hname : ∀ c ∈ rest.head?, isNameChar c = false)
    (hhash : ∀ c ∈ rest.head?, c ≠ '#') (hquote : ∀ c ∈ rest.head?, c ≠ '"')
    (hmark : ∀ c ∈ rest.head?, c ≠ '\'') : Follows .ident lexeme rest := by
  have hfenced := fenced_eq_none hhash hquote
  refine ⟨hname, fun _ => ⟨hfenced, rawName_prefix_eq_none hhash⟩, fun _ => hfenced,
    fun _ => ⟨string_prefix_eq_none hquote, ?_⟩⟩
  exact char_eq_none (by decide) fun _ => hmark

/-- A text whose first character goes on with nothing may follow any token but an open string,
if it may follow a name and makes no mark of two characters. -/
theorem follows_of_head {kind : TokenKind} {lexeme : List Char} (hkind : kind.isTrivia = false)
    (hstring : kind = .string → isFirm lexeme = true)
    (hname : kind ∈ [.ident, .lifetime, .number] → ∀ c ∈ rest.head?, isNameChar c = false)
    (hident : kind = .ident → Follows .ident lexeme rest)
    (hpairs : kind = .punct → ∀ c, lexeme = [c] → ∀ d ∈ rest.head?, (c, d) ∉ punctPairs)
    (hmark : ∀ c ∈ rest.head?, c ≠ '\'') (hpoint : ∀ c ∈ rest.head?, c ≠ '.')
    (hslash : ∀ c ∈ rest.head?, c ≠ '/') (hstar : ∀ c ∈ rest.head?, c ≠ '*') :
    Follows kind lexeme rest := by
  cases kind with
  | lineComment => cases hkind
  | space => cases hkind
  | string => exact fun _ => hstring rfl
  | lifetime => exact ⟨hname (by decide), fun _ => hmark⟩
  | ident => exact hident rfl
  | number => exact ⟨hname (by decide), fun _ => fraction_eq_none hpoint⟩
  | punct => exact ⟨hpairs rfl, fun _ => ⟨hslash, blockComment_prefix_eq_none hstar⟩⟩
  | _ => trivial

/-- Behind any token but an open string a boundary may follow. -/
theorem follows_of_bounded {kind : TokenKind} {lexeme : List Char} (hkind : kind.isTrivia = false)
    (hstring : kind = .string → isFirm lexeme = true) (h : Bounded rest) :
    Follows kind lexeme rest := by
  have hpairs : ∀ pair ∈ punctPairs, pair.2 ∉ boundaries := by decide
  refine follows_of_head hkind hstring (fun _ => h.not_name) (fun _ => ?_)
    (fun _ c _ d hd hpair => ?_) (h.ne (by decide)) (h.ne (by decide)) (h.ne (by decide))
    (h.ne (by decide))
  · exact follows_ident lexeme h.not_name (h.ne (by decide)) (h.ne (by decide)) (h.ne (by decide))
  · exact hpairs _ hpair (h d hd)

end

def IsLexeme (kind : TokenKind) (text : String) : Prop :=
  next? text.toList = some (kind, text.toList, [])

instance (kind : TokenKind) (text : String) : Decidable (IsLexeme kind text) :=
  inferInstanceAs (Decidable (_ = _))

/-- Opening delimiters are spelled as such. -/
theorem IsLexeme.eq_openText {d : Delimiter} {text : String} (h : IsLexeme (.opener d) text) :
    text = d.openText := by
  obtain ⟨c, hc, htext⟩ := exists_delimiter (by cases d <;> simp [delimiters]) (ofKind_of_next? h)
  rw [← String.toList_inj, htext]
  cases d <;> simp [delimiters] at hc <;> rw [hc] <;> rfl

/-! ### Names and numbers on their own -/

section
variable {lexeme more : List Char}

theorem next?_ident_iff : next? lexeme = some (.ident, lexeme, []) ↔
    (∃ name, lexeme = 'r' :: '#' :: name ∧ isName name = true) ∨ isName lexeme = true := by
  have hnone : ∀ c ∈ ([] : List Char).head?, isNameChar c = false := by simp
  constructor
  · intro h
    have hkind : ident lexeme = some (lexeme, []) := ofKind_of_next? h
    exact (ident_append_iff.1 (by rwa [List.append_nil])).1
  · intro hname
    have hident := ident_append_iff.2 ⟨hname, hnone, fun _ => rfl⟩
    rw [List.append_nil] at hident
    rcases hname with ⟨name, rfl, hname⟩ | hname
    · obtain ⟨c, rest, rfl, hc, _⟩ := exists_of_isName hname
      refine next?_of_ident hident (prepend_eq_none_iff.2 ?_) rfl rfl
      exact fenced_hashes_eq_none ['#'] (by simp) (isNameChar_of_isNameStart hc)
    · have hraw := rawString_name_eq_none hname hnone (fun _ => rfl) fun _ => rfl
      have hstring := @string_name_eq_none [] lexeme hname fun _ => rfl
      have hchar := @char_name_prefix_eq_none [] lexeme hname fun _ => rfl
      rw [List.append_nil] at hraw hstring hchar
      exact next?_of_ident hident hraw hstring hchar

theorem next?_lifetime_iff : next? lexeme = some (.lifetime, lexeme, []) ↔
    ∃ name, lexeme = '\'' :: name ∧ isName name = true := by
  constructor
  · intro h
    have hkind : lifetime lexeme = some (lexeme, []) := ofKind_of_next? h
    exact (lifetime_append_iff.1 (by rwa [List.append_nil])).1
  · rintro ⟨name, rfl, hname⟩
    have hlifetime := (@lifetime_append_iff _ []).2 ⟨⟨name, rfl, hname⟩, by simp⟩
    rw [List.append_nil] at hlifetime
    obtain ⟨c, rest, rfl, hc, hrest⟩ := exists_of_isName hname
    refine next?_of_lifetime hlifetime ((char_name_eq_none_iff hc).2 fun d hd => ?_)
    have hname := hrest d (List.mem_of_mem_head? hd)
    refine beq_false_of_ne ?_
    rintro rfl
    exact absurd hname (by decide)

theorem next?_number_iff : next? lexeme = some (.number, lexeme, []) ↔
    isDigits lexeme = true ∨
      ∃ whole fraction, lexeme = whole ++ '.' :: fraction ∧ isDigits whole = true ∧
        isDigits fraction = true := by
  constructor
  · intro h
    have hkind : number lexeme = some (lexeme, []) := ofKind_of_next? h
    exact (number_append_iff.1 (by rwa [List.append_nil])).2.imp_left And.left
  · intro h
    have hnumber := (@number_append_iff lexeme []).2
      ⟨by simp, h.imp_left fun hdigits => ⟨hdigits, rfl⟩⟩
    rw [List.append_nil] at hnumber
    exact next?_of_number hnumber

theorem isName_append (h : isName lexeme = true) (hmore : more.all isNameChar = true) :
    isName (lexeme ++ more) = true := by
  cases lexeme with
  | nil => cases h
  | cons c name =>
    rw [isName, Bool.and_eq_true] at h
    rw [List.cons_append, isName, List.all_append, h.1, h.2, hmore]
    rfl

theorem isDigits_append (h : isDigits lexeme = true) (hmore : more.all isNameChar = true) :
    isDigits (lexeme ++ more) = true := by
  cases lexeme with
  | nil => cases h
  | cons c digits =>
    rw [isDigits, Bool.and_eq_true] at h
    rw [List.cons_append, isDigits, List.all_append, h.1, h.2, hmore]
    rfl

/-- The characters of a name go on with names, lifetimes and numbers. -/
theorem next?_name_append {kind : TokenKind} (hkind : kind ∈ [.ident, .lifetime, .number])
    (h : next? lexeme = some (kind, lexeme, [])) (hmore : more.all isNameChar = true) :
    next? (lexeme ++ more) = some (kind, lexeme ++ more, []) := by
  simp only [List.mem_cons, List.not_mem_nil, or_false] at hkind
  rcases hkind with rfl | rfl | rfl
  · refine next?_ident_iff.2 ?_
    rcases next?_ident_iff.1 h with ⟨name, rfl, hname⟩ | hname
    · exact .inl ⟨_, rfl, isName_append hname hmore⟩
    · exact .inr (isName_append hname hmore)
  · obtain ⟨name, rfl, hname⟩ := next?_lifetime_iff.1 h
    exact next?_lifetime_iff.2 ⟨_, rfl, isName_append hname hmore⟩
  · refine next?_number_iff.2 ?_
    rcases next?_number_iff.1 h with hdigits | ⟨whole, fraction, rfl, hwhole, hfraction⟩
    · exact .inl (isDigits_append hdigits hmore)
    · exact .inr ⟨whole, _, by simp, hwhole, isDigits_append hfraction hmore⟩

end

/-! ### Tokens that the next character decides about -/

/-- Names, lifetimes, delimiters and all marks but those that may begin a comment or the
fence of a raw string. -/
def isLocal (bare : TokenKind × String) : Bool :=
  match bare.1 with
  | .ident | .lifetime | .opener _ | .closer _ => true
  | .punct => bare.2 != "/" && bare.2 != "#"
  | _ => false

end Terminal

/-- A value as a literal is one token, whatever stands behind it. -/
theorem Literal.isLexeme_quote (value : String) :
    Terminal.IsLexeme .string (Literal.quote value) ∧
      Terminal.isFirm (Literal.quote value).toList = true := by
  have hcloses : Terminal.closesFirmly (value.toList.flatMap Literal.quoteChar ++ ['"']) = true :=
    Terminal.closesFirmly_flatMap (fun c _ => Literal.closesFirmly_quoteChar c) ['"']
  have hquote : (Literal.quote value).toList =
      '"' :: (value.toList.flatMap Literal.quoteChar ++ ['"']) := by
    rw [Literal.quote_eq, String.toList_ofList]
  rw [Terminal.IsLexeme, hquote]
  exact ⟨Terminal.next?_of_string
    (@Terminal.prepend_append ['"'] _ _ _ (Terminal.throughQuote_of_closesFirmly hcloses)), hcloses⟩

namespace NestingScan

open Terminal

/-- A local token begins neither with a hash sign nor with a quote. -/
theorem head_of_isLocal {kind : TokenKind} {lexeme rest : List Char}
    (hnext : next? (lexeme ++ rest) = some (kind, lexeme, rest))
    (hlocal : isLocal (kind, String.ofList lexeme) = true) :
    ∀ c ∈ lexeme.head?, c ≠ '#' ∧ c ≠ '"' := by
  have hkind := ofKind_of_next? hnext
  rintro c hc
  obtain ⟨more, rfl⟩ : ∃ more, lexeme = c :: more := by
    cases lexeme with
    | nil => cases hc
    | cons d more => exact ⟨more, by rw [Option.mem_some.1 hc]⟩
  rw [List.cons_append] at hkind
  constructor
  · rintro rfl
    cases kind with
    | ident => rw [ofKind, ident_eq_none (by decide)] at hkind; cases hkind
    | lifetime => cases hkind
    | punct =>
      rcases (@punct_append_iff ('#' :: more) rest).1 hkind with ⟨c, d, heq, hpair⟩ | ⟨c, heq, -⟩
      · cases heq
        exact absurd hpair (by simp [punctPairs])
      · rw [heq, ← (List.cons.inj heq).1] at hlocal
        exact absurd hlocal (by decide)
    | opener d => cases d <;> cases hkind
    | closer d => cases d <;> cases hkind
    | _ => cases hlocal
  · rintro rfl
    cases kind with
    | ident => rw [ofKind, ident_eq_none (by decide)] at hkind; cases hkind
    | lifetime => cases hkind
    | punct => rw [ofKind, punct_eq_none (by decide)] at hkind; cases hkind
    | opener d => cases d <;> cases hkind
    | closer d => cases d <;> cases hkind
    | _ => cases hlocal

/-- The character that a text of local tokens begins with opens neither a string nor a fence. -/
theorem Written.head_of_isLocal {text : List Char} {bares : List (TokenKind × String)}
    (h : Written text bares) (hlocal : ∀ bare ∈ bares.head?, isLocal bare = true) :
    ∀ c ∈ text.head?, c ≠ '#' ∧ c ≠ '"' := by
  intro c hc
  cases h with
  | nil => cases hc
  | blank hspace _ =>
    cases hc
    constructor <;> rintro rfl <;> exact absurd hspace (by decide)
  | @token kind lexeme rest bares hkind hnext _ =>
    refine NestingScan.head_of_isLocal hnext (hlocal _ rfl) c ?_
    rwa [List.head?_append_of_ne_nil _ (next?_sound hnext).2] at hc

/-- Behind `b` an apostrophe that begins a local token begins no literal. -/
theorem Written.char_of_isLocal {text : List Char} {bares : List (TokenKind × String)}
    (h : Written text bares) (hlocal : ∀ bare ∈ bares.head?, isLocal bare = true) :
    char ('b' :: text) = none := by
  cases text with
  | nil => rfl
  | cons c more =>
    by_cases hc : c = '\''
    · subst hc
      rw [char_prefixed_eq_none_iff]
      generalize htext : '\'' :: more = text at h ⊢
      cases h with
      | nil => cases htext
      | blank hspace _ =>
        cases htext
        exact absurd hspace (by decide)
      | token hkind hnext _ =>
        refine char_of_next?_ne hnext ?_
        rintro rfl
        exact absurd (hlocal _ rfl) (by simp [isLocal])
    · exact char_eq_none (by decide) fun _ d hd => by
        cases hd
        exact hc

/-- A local token that is followed by others is followed by them if more is written behind. -/
theorem follows_append {kind : TokenKind} {lexeme old rest : List Char}
    {bares : List (TokenKind × String)} (h : Follows kind lexeme old)
    (hlocal : isLocal (kind, String.ofList lexeme) = true) (hne : old ≠ [])
    (hwritten : Written (old ++ rest) bares) (hbares : ∀ bare ∈ bares.head?, isLocal bare = true) :
    Follows kind lexeme (old ++ rest) := by
  have hhead : (old ++ rest).head? = old.head? := List.head?_append_of_ne_nil _ hne
  have hhash := fun c hc => (hwritten.head_of_isLocal hbares c hc).1
  have hquote := fun c hc => (hwritten.head_of_isLocal hbares c hc).2
  cases kind with
  | ident =>
    have hfenced := fenced_eq_none hhash hquote
    refine ⟨by rw [hhead]; exact h.1, fun _ => ⟨hfenced, rawName_prefix_eq_none hhash⟩,
      fun _ => hfenced, fun _ => ⟨string_prefix_eq_none hquote, hwritten.char_of_isLocal hbares⟩⟩
  | lifetime => exact ⟨by rw [hhead]; exact h.1, by rw [hhead]; exact h.2⟩
  | punct =>
    refine ⟨by rw [hhead]; exact h.1, ?_⟩
    rintro rfl
    exact absurd hlocal (by decide)
  | opener d => trivial
  | closer d => trivial
  | _ => cases hlocal

/-- A text of local tokens and a text with a boundary at its front are written one behind the
other. -/
theorem Written.append {front rest : List Char} {bares more : List (TokenKind × String)}
    (h : Written front bares) (hlocal : ∀ bare ∈ bares, isLocal bare = true)
    (hrest : Written rest more) (hbounded : Bounded rest) :
    Written (front ++ rest) (bares ++ more) := by
  induction h with
  | nil => exact hrest
  | blank hc _ ih => exact .blank hc (ih hlocal)
  | @token kind lexeme old bares hkind hnext hold ih =>
    obtain ⟨hfirst, hothers⟩ := List.forall_mem_cons.1 hlocal
    have hnew := ih hothers
    obtain ⟨halone, hfollows⟩ := next?_append_iff.1 hnext
    have hstring : kind = .string → isFirm lexeme = true := by
      rintro rfl
      cases hfirst
    rw [List.append_assoc]
    refine .token hkind (next?_append_iff.2 ⟨halone, ?_⟩) hnew
    cases hold with
    | nil => exact follows_of_bounded hkind hstring hbounded
    | blank hc _ => exact follows_of_bounded hkind hstring (bounded_blank hc _)
    | @token _ lexeme' old' _ _ hnext' _ =>
      have hne : lexeme' ++ old' ≠ [] :=
        List.append_ne_nil_of_left_ne_nil (next?_sound hnext').2 _
      refine follows_append hfollows hfirst hne hnew ?_
      rintro bare hbare
      cases hbare
      exact hothers _ List.mem_cons_self

/-- A token that is written whole and that the rest may follow. -/
theorem Written.lexeme {kind : TokenKind} {text : String} {rest : List Char}
    {bares : List (TokenKind × String)} (h : Written rest bares) (halone : IsLexeme kind text)
    (hkind : kind.isTrivia = false) (hfollows : Follows kind text.toList rest) :
    Written (text.toList ++ rest) ((kind, text) :: bares) := by
  have htoken := Written.token hkind (next?_append_iff.2 ⟨halone, hfollows⟩) h
  rwa [String.ofList_toList] at htoken

/-- A delimiter, behind which anything may come. -/
theorem Written.delimiter {kind : TokenKind} {c : Char} {rest : List Char}
    {bares : List (TokenKind × String)} (h : Written rest bares) (hc : (kind, c) ∈ delimiters) :
    Written (c :: rest) ((kind, String.ofList [c]) :: bares) := by
  have hall : ∀ delimiter ∈ delimiters, delimiter.1.isTrivia = false := by decide
  exact @Written.token kind [c] rest bares (hall _ hc) (next?_of_delimiter hc rest) h

end NestingScan
end LuaBindings
