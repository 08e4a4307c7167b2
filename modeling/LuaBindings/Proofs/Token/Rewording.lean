import LuaBindings.Proofs.Token.Lookahead

/-!
# Lexemes between changed names

Where some names of a text are replaced by others, every other lexeme is taken as before
(`follows_reworded`): what a lexeme is kept from running into is never a name alone, and a
name begins and goes on like any other.
-/

set_option autoImplicit false

namespace LuaBindings.Terminal

/-! ### Character by character -/

/-- The second text is the first one with names in the places of some names. -/
inductive Respelled : List Char → List Char → Prop
  | nil : Respelled [] []
  | keep (c : Char) {old new : List Char} : Respelled old new → Respelled (c :: old) (c :: new)
  | name {word word' old new : List Char} : isName word = true → isName word' = true →
    Respelled old new → Respelled (word ++ old) (word' ++ new)

namespace Respelled

theorem append {old new : List Char} (h : Respelled old new) (front : List Char) :
    Respelled (front ++ old) (front ++ new) := by
  induction front with
  | nil => exact h
  | cons c front ih => exact ih.keep c

section
variable {old new : List Char} (h : Respelled old new)
include h

/-- The first character is kept, or a name starts in both texts. -/
theorem head_cases : ∀ c ∈ new.head?,
    c ∈ old.head? ∨ (isNameStart c = true ∧ ∃ d ∈ old.head?, isNameStart d = true) := by
  cases h with
  | nil => simp
  | keep c _ => simp
  | name hold hnew _ =>
    obtain ⟨d, _, rfl, hd, _⟩ := exists_of_isName hold
    obtain ⟨c, _, rfl, hc, _⟩ := exists_of_isName hnew
    intro c' hc'
    cases hc'
    exact .inr ⟨hc, d, rfl, hd⟩

/-- A class that holds all the characters at which a name starts, or none of them, does not
come to stand in front. -/
theorem head_not {p : Char → Bool}
    (hp : (∀ c, isNameStart c = true → p c = true) ∨ ∀ c, isNameStart c = true → p c = false)
    (hold : ∀ c ∈ old.head?, p c = false) : ∀ c ∈ new.head?, p c = false := by
  intro c hc
  rcases h.head_cases c hc with hc | ⟨hc, d, hd, hname⟩
  · exact hold c hc
  · rcases hp with hp | hp
    · exact absurd (hp d hname) (by simp [hold d hd])
    · exact hp c hc

theorem head_not_nameChar (hold : ∀ c ∈ old.head?, isNameChar c = false) :
    ∀ c ∈ new.head?, isNameChar c = false :=
  h.head_not (.inl fun _ => isNameChar_of_isNameStart) hold

theorem head_ne (mark : Char) (hmark : isNameStart mark = false)
    (hold : ∀ c ∈ old.head?, (c == mark) = false) : ∀ c ∈ new.head?, (c == mark) = false := by
  refine h.head_not (.inr fun c hc => beq_false_of_ne ?_) hold
  rintro rfl
  rw [hmark] at hc
  cases hc

end

def Unnamed (pattern : List Char) : Prop := ∀ c ∈ pattern, isNameChar c = false

instance (pattern : List Char) : Decidable (Unnamed pattern) :=
  List.decidableBAll _ pattern

theorem of_cons {c : Char} {old new : List Char} (h : Respelled old (c :: new))
    (hc : isNameChar c = false) : ∃ old', old = c :: old' ∧ Respelled old' new := by
  generalize htext : c :: new = text at h
  cases h with
  | nil => cases htext
  | keep _ h =>
    cases htext
    exact ⟨_, rfl, h⟩
  | name _ hnew _ =>
    obtain ⟨d, _, rfl, hd, _⟩ := exists_of_isName hnew
    cases htext
    rw [isNameChar_of_isNameStart hd] at hc
    cases hc

theorem of_append {pattern old new : List Char} (h : Respelled old (pattern ++ new))
    (hpattern : Unnamed pattern) : ∃ old', old = pattern ++ old' ∧ Respelled old' new := by
  induction pattern generalizing old with
  | nil => exact ⟨old, rfl, h⟩
  | cons c pattern ih =>
    obtain ⟨hc, hrest⟩ := List.forall_mem_cons.1 hpattern
    obtain ⟨old', rfl, hkept⟩ := h.of_cons hc
    obtain ⟨rest, rfl, hrest⟩ := ih hkept hrest
    exact ⟨rest, rfl, hrest⟩

/-- What cannot stand in a name does not begin in one. -/
theorem infix_of_name {c : Char} {pattern name rest : List Char} (hc : isNameChar c = false)
    (hname : ∀ d ∈ name, isNameChar d = true) (h : c :: pattern <:+: name ++ rest) :
    c :: pattern <:+: rest := by
  induction name with
  | nil => exact h
  | cons d name ih =>
    obtain ⟨hd, hname⟩ := List.forall_mem_cons.1 hname
    rcases List.infix_cons_iff.1 h with hfront | hinside
    · rw [(List.cons_prefix_cons.1 hfront).1, hd] at hc
      cases hc
    · exact ih hname hinside

theorem infix_of_infix {c : Char} {pattern old new : List Char} (h : Respelled old new)
    (hpattern : Unnamed (c :: pattern)) (hnew : c :: pattern <:+: new) :
    c :: pattern <:+: old := by
  induction h with
  | nil => exact hnew
  | keep d hrest ih =>
    rcases List.infix_cons_iff.1 hnew with hfront | hinside
    · obtain ⟨back, hback⟩ := hfront
      obtain ⟨old', hold, _⟩ := of_append (hback ▸ hrest.keep d) hpattern
      exact ⟨[], old', hold.symm⟩
    · exact (ih hinside).trans (List.suffix_cons d _).isInfix
  | name hold hname _ ih =>
    obtain ⟨d, more, rfl, hd, hmore⟩ := exists_of_isName hname
    have hall : ∀ e ∈ d :: more, isNameChar e = true :=
      List.forall_mem_cons.2 ⟨isNameChar_of_isNameStart hd, hmore⟩
    have hinside := infix_of_name (List.forall_mem_cons.1 hpattern).1 hall hnew
    exact (ih hinside).trans (List.suffix_append _ _).isInfix

/-! ### Terminals that go on refusing -/

section
variable {old new : List Char} (h : Respelled old new)
include h

theorem quote_mem (hnew : '"' ∈ new) : '"' ∈ old := by
  rw [← List.singleton_infix_iff] at hnew ⊢
  exact h.infix_of_infix (by decide) hnew

theorem blockComment_eq_none (hold : blockComment ('/' :: old) = none) :
    blockComment ('/' :: new) = none := by
  cases new with
  | nil => rfl
  | cons c new =>
    by_cases hc : c = '*'
    · subst hc
      obtain ⟨old', rfl, hrest⟩ := h.of_cons rfl
      change prepend ['/', '*'] (throughCommentEnd old') = none at hold
      change prepend ['/', '*'] (throughCommentEnd new) = none
      rw [prepend_eq_none_iff, throughCommentEnd_eq_none_iff] at hold ⊢
      exact fun hin => hold (hrest.infix_of_infix (by decide) hin)
    · simp [blockComment, hc]

theorem fenced_eq_none (hold : fenced old = none) : fenced new = none := by
  unfold fenced
  split
  · rename_i hashes rest hrun
    have hhashes := hashes_of_run hrun
    have hnew : hashes ++ '"' :: rest = new := by
      have := run_append (· == '#') new
      rwa [hrun] at this
    have hunnamed : Unnamed ('"' :: hashes) := by
      refine List.forall_mem_cons.2 ⟨rfl, fun c hc => ?_⟩
      rw [eq_of_beq (hhashes c hc)]
      rfl
    rw [← hnew] at h
    obtain ⟨old', rfl, hquote⟩ := h.of_append (List.forall_mem_cons.1 hunnamed).2
    obtain ⟨old', rfl, hrest⟩ := hquote.of_cons rfl
    rw [fenced_append hhashes] at hold
    rw [prepend_eq_none_iff, throughFence_eq_none_iff] at hold ⊢
    exact fun hin => hold (hrest.infix_of_infix hunnamed hin)
  · rfl

theorem string_eq_none (hold : string ('b' :: old) = none) : string ('b' :: new) = none := by
  cases new with
  | nil => rfl
  | cons c new =>
    by_cases hc : c = '"'
    · subst hc
      obtain ⟨old', rfl, hrest⟩ := h.of_cons rfl
      change prepend ['b', '"'] (throughQuote old') = none at hold
      change prepend ['b', '"'] (throughQuote new) = none
      rw [prepend_eq_none_iff, throughQuote_eq_none_iff] at hold ⊢
      exact fun hin => hold (hrest.quote_mem hin)
    · simp [string, hc]

theorem rawName_eq_none (hold : rawName ('r' :: old) = none) : rawName ('r' :: new) = none := by
  cases new with
  | nil => rfl
  | cons c new =>
    by_cases hc : c = '#'
    · subst hc
      obtain ⟨old', rfl, hrest⟩ := h.of_cons rfl
      change prepend ['r', '#'] (plainName old') = none at hold
      change prepend ['r', '#'] (plainName new) = none
      rw [prepend_eq_none_iff, plainName_eq_none_iff] at hold ⊢
      exact hrest.head_not (.inl fun _ => id) hold
    · simp [rawName, hc]

theorem fraction_eq_none (hold : fraction old = none) : fraction new = none := by
  cases new with
  | nil => rfl
  | cons c new =>
    by_cases hc : c = '.'
    · subst hc
      obtain ⟨old', rfl, hrest⟩ := h.of_cons rfl
      change prepend ['.'] (digits old') = none at hold
      change prepend ['.'] (digits new) = none
      rw [prepend_eq_none_iff, digits_eq_none_iff] at hold ⊢
      refine hrest.head_not (.inr fun c hc => ?_) hold
      by_contra hdigit
      rw [isNameStart_eq_false_of_isDigit ((Bool.not_eq_false _).mp hdigit)] at hc
      cases hc
    · simp [fraction, hc]

end

end Respelled

/-! ### Token by token -/

/-- The second text is the first one with names in the places of some names, where
whatever is kept is a lexeme of the first text or a blank. -/
inductive Reworded : List Char → List Char → Prop
  | nil : Reworded [] []
  | blank {c : Char} {old new : List Char} : isSpace c = true → Reworded old new →
    Reworded (c :: old) (c :: new)
  | token {kind : TokenKind} {lexeme old new : List Char} :
    next? (lexeme ++ old) = some (kind, lexeme, old) → Reworded old new →
    Reworded (lexeme ++ old) (lexeme ++ new)
  | name {word word' old new : List Char} : isName word = true → isName word' = true →
    Reworded old new → Reworded (word ++ old) (word' ++ new)

theorem Reworded.respelled {old new : List Char} (h : Reworded old new) : Respelled old new := by
  induction h with
  | nil => exact .nil
  | blank _ _ ih => exact ih.keep _
  | token _ _ ih => exact ih.append _
  | name hold hnew _ ih => exact ih.name hold hnew

theorem Reworded.blanks {blanks old new : List Char} (h : Reworded old new)
    (hblanks : ∀ c ∈ blanks, isSpace c = true) : Reworded (blanks ++ old) (blanks ++ new) := by
  induction blanks with
  | nil => exact h
  | cons c blanks ih =>
    obtain ⟨hc, hrest⟩ := List.forall_mem_cons.1 hblanks
    exact (ih hrest).blank hc

/-- An apostrophe that begins no character literal behind `b` begins a lifetime, which is
kept as a whole. -/
theorem Reworded.char_eq_none {old new : List Char} (h : Reworded old new)
    (hold : char ('b' :: old) = none) : char ('b' :: new) = none := by
  cases h with
  | nil => rfl
  | @blank c _ _ hc _ =>
    have hmark : c ≠ '\'' := by rintro rfl; exact absurd hc (by decide)
    exact Terminal.char_eq_none (by decide) (by simpa using hmark)
  | @token kind lexeme old new hnext hrest =>
    cases lexeme with
    | nil => exact absurd rfl (next?_sound hnext).2
    | cons c body =>
      by_cases hc : c = '\''
      · subst hc
        rw [List.cons_append, char_prefixed_eq_none_iff] at hold ⊢
        exact apostrophe_refuses hnext (hrest.respelled.head_ne '\'' (by decide)) hold
      · exact Terminal.char_eq_none (by decide) (by simpa using hc)
  | name _ hname _ =>
    obtain ⟨c, _, rfl, hc, _⟩ := exists_of_isName hname
    have hmark : c ≠ '\'' := by rintro rfl; exact absurd hc (by decide)
    exact Terminal.char_eq_none (by decide) (by simpa using hmark)

/-- What may follow a lexeme may follow it with other names. -/
theorem follows_reworded {kind : TokenKind} {lexeme old new : List Char} (h : Reworded old new)
    (hold : Follows kind lexeme old) : Follows kind lexeme new := by
  have hr := h.respelled
  cases kind with
  | lineComment =>
    have hhead : ∀ c ∈ old.head?, c = '\n' := hold
    have hfeed : ∀ c, isNameStart c = true → (c != '\n') = true := fun c hc => by
      rw [bne_iff_ne]
      rintro rfl
      cases hc
    have hnew := hr.head_not (p := (· != '\n')) (.inl hfeed) (by simpa using hhead)
    exact fun c hc => by simpa using hnew c hc
  | space =>
    exact hr.head_not (.inr fun _ => isSpace_eq_false_of_isNameStart) hold
  | string => exact fun hquote => hold (hr.quote_mem hquote)
  | lifetime =>
    obtain ⟨hhead, hmark⟩ := hold
    refine ⟨hr.head_not_nameChar hhead, fun hlength => ?_⟩
    simpa using hr.head_ne '\'' (by decide) (by simpa using hmark hlength)
  | ident =>
    obtain ⟨hhead, hraw, hbyte, hb⟩ := hold
    exact ⟨hr.head_not_nameChar hhead,
      fun heq => ⟨hr.fenced_eq_none (hraw heq).1, hr.rawName_eq_none (hraw heq).2⟩,
      fun heq => hr.fenced_eq_none (hbyte heq),
      fun heq => ⟨hr.string_eq_none (hb heq).1, h.char_eq_none (hb heq).2⟩⟩
  | number =>
    obtain ⟨hhead, hpoint⟩ := hold
    exact ⟨hr.head_not_nameChar hhead, fun hmem => hr.fraction_eq_none (hpoint hmem)⟩
  | punct =>
    obtain ⟨hpairs, hslash⟩ := hold
    constructor
    · intro c hc
      have hnone : ∀ d, isNameStart d = true → decide ((c, d) ∈ punctPairs) = false := fun d hd => by
        have hall : ∀ pair ∈ punctPairs, isNameStart pair.2 = false := by decide
        rw [decide_eq_false_iff_not]
        intro hpair
        rw [hall _ hpair] at hd
        cases hd
      simpa using hr.head_not (.inr hnone) (by simpa using hpairs c hc)
    · intro heq
      obtain ⟨hhead, hnone⟩ := hslash heq
      refine ⟨?_, hr.blockComment_eq_none hnone⟩
      simpa using hr.head_ne '/' (by decide) (by simpa using hhead)
  | _ => trivial

end LuaBindings.Terminal
