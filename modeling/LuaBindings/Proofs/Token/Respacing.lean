import LuaBindings.Proofs.Token.Lexeme

/-!
# Lexemes in a respaced text

A respaced text keeps whole lexemes of a text, has blanks between them, and may stop
early or go on like the text. The main statement is `next?_respaced`: the terminal that
takes a lexeme from the front of the text takes the same lexeme from the front of the
respaced one. No terminal tried earlier begins to match, because what it would need has
stood in the text, and the lexeme itself does not reach further.
-/

set_option autoImplicit false

namespace LuaBindings.Terminal

/-- The second text is the first one respaced: it keeps lexemes that are taken from the
first, may have blanks wherever a lexeme starts, and ends early or goes on unchanged. -/
inductive Respaced : List Char → List Char → Prop
  | stop (old : List Char) : Respaced old []
  | same (text : List Char) : Respaced text text
  | token {kind : TokenKind} {lexeme old new : List Char} :
    next? (lexeme ++ old) = some (kind, lexeme, old) → Respaced old new →
    Respaced (lexeme ++ old) (lexeme ++ new)
  | gap (stretch : List Char) {blank : Char} {old new : List Char} :
    isSpace blank = true → Respaced old new → Respaced (stretch ++ old) (blank :: new)

theorem Respaced.thinned {old new : List Char} (h : Respaced old new) : Thinned old new := by
  induction h with
  | stop old => exact .stop old
  | same text => exact .refl text
  | token _ _ ih => exact ih.append _
  | gap stretch hblank _ ih => exact .gap stretch hblank ih

/-- Several blanks in the place of a stretch. -/
theorem Respaced.blanks (stretch : List Char) {blanks old new : List Char} (hne : blanks ≠ [])
    (hblanks : ∀ c ∈ blanks, isSpace c = true) (h : Respaced old new) :
    Respaced (stretch ++ old) (blanks ++ new) := by
  induction blanks generalizing stretch with
  | nil => exact absurd rfl hne
  | cons c blanks ih =>
    refine .gap stretch (hblanks c List.mem_cons_self) ?_
    by_cases htail : blanks = []
    · rwa [htail]
    · exact ih [] htail fun d hd => hblanks d (List.mem_cons_of_mem c hd)

/-! ### Character literals

A character literal may hold a blank right behind its apostrophe, so it is not enough
that the text is thinned. What saves it is that an apostrophe is no lexeme by itself. -/

theorem char_eq_none {c : Char} {text : List Char} (hc : c ≠ '\'')
    (hb : c = 'b' → ∀ d ∈ text.head?, d ≠ '\'') : char (c :: text) = none := by
  unfold char
  split
  · rename_i heq
    simp only [List.cons.injEq] at heq
    exact absurd rfl (hb heq.1 '\'' (by simp [heq.2]))
  · rename_i heq
    exact absurd (List.cons.inj heq).1 hc
  · rfl

theorem char_prefixed_eq_none_iff {text : List Char} :
    char ('b' :: '\'' :: text) = none ↔ char ('\'' :: text) = none := by
  change prepend _ (charBody text) = none ↔ prepend _ (charBody text) = none
  rw [prepend_eq_none_iff, prepend_eq_none_iff]

theorem char_name_eq_none_iff {c : Char} (hc : isNameStart c = true) {text : List Char} :
    char ('\'' :: c :: text) = none ↔ ∀ d ∈ text.head?, (d == '\'') = false := by
  have hslash : c ≠ '\\' := by rintro rfl; exact absurd hc (by decide)
  have hmark : c ≠ '\'' := by rintro rfl; exact absurd hc (by decide)
  have hfeed : c ≠ '\n' := by rintro rfl; exact absurd hc (by decide)
  change prepend _ (charBody (c :: text)) = none ↔ _
  rw [prepend_eq_none_iff]
  cases text with
  | nil =>
    simp [charBody, closed, unicodeEscape, byteEscape, simpleEscape, plainChar, hslash, hmark,
      hfeed]
  | cons d text =>
    by_cases hd : d = '\'' <;>
      simp [charBody, closed, unicodeEscape, byteEscape, simpleEscape, plainChar, hslash, hmark,
        hfeed, hd]

/-- Behind an apostrophe stands a character literal or a lifetime. -/
theorem next?_apostrophe {kind : TokenKind} {text lexeme rest : List Char}
    (h : next? ('\'' :: text) = some (kind, lexeme, rest)) (hchar : char ('\'' :: text) = none) :
    lifetime ('\'' :: text) = some (lexeme, rest) := by
  have hpunct : punct ('\'' :: text) = none := by cases text <;> rfl
  cases hlifetime : lifetime ('\'' :: text) with
  | some split =>
    simp [next?, terminals, lineComment, blockComment, rawString, string, hchar, hlifetime] at h
    simp [h.2]
  | none =>
    simp [next?, terminals, lineComment, blockComment, rawString, string, hchar, hlifetime, ident,
      rawName, plainName, isNameStart, number, digits, space, word, isSpace, hpunct, single] at h

/-- Where an apostrophe behind `b` starts no literal, `b` is a name of its own. -/
theorem next?_b_apostrophe {kind : TokenKind} {text lexeme rest : List Char}
    (h : next? ('b' :: '\'' :: text) = some (kind, lexeme, rest))
    (hchar : char ('b' :: '\'' :: text) = none) : lexeme = ['b'] := by
  simp [next?, terminals, lineComment, blockComment, rawString, string, hchar, lifetime, ident,
    rawName, plainName, word, isNameStart, isNameChar, run, prepend] at h
  exact h.2.1.symm

theorem Thinned.head_not_apostrophe {old new : List Char} (h : Thinned old new)
    (hold : ∀ d ∈ old.head?, (d == '\'') = false) : ∀ d ∈ new.head?, (d == '\'') = false :=
  h.head_not (by simp; decide) hold

theorem apostrophe_refuses {kind : TokenKind} {body old new : List Char}
    (h : next? ('\'' :: body ++ old) = some (kind, '\'' :: body, old))
    (hhead : (∀ d ∈ old.head?, (d == '\'') = false) → ∀ d ∈ new.head?, (d == '\'') = false)
    (hold : char ('\'' :: body ++ old) = none) : char ('\'' :: body ++ new) = none := by
  have hname : plainName (body ++ old) = some (body, old) :=
    eq_of_prepend_append ['\''] (next?_apostrophe h hold)
  cases body with
  | nil => exact absurd rfl (plainName_sound _ _ _ hname).2
  | cons c name =>
    rw [List.cons_append, plainName, word] at hname
    split at hname
    · rename_i hc
      have hrun := Option.some.inj (eq_of_prepend_append _ hname)
      rw [List.cons_append, List.cons_append, char_name_eq_none_iff hc] at hold ⊢
      cases name with
      | nil => exact hhead hold
      | cons d name => exact hold
    · cases hname

theorem char_refuses {kind : TokenKind} {lexeme old new : List Char}
    (h : next? (lexeme ++ old) = some (kind, lexeme, old)) (hr : Respaced old new)
    (hold : char (lexeme ++ old) = none) : char (lexeme ++ new) = none := by
  cases lexeme with
  | nil => exact absurd rfl (next?_sound h).2
  | cons c body =>
    by_cases hc : c = '\''
    · subst hc
      exact apostrophe_refuses h hr.thinned.head_not_apostrophe hold
    by_cases hb : c = 'b'
    · subst hb
      cases body with
      | cons d body =>
        by_cases hd : d = '\''
        · subst hd
          exact absurd (next?_b_apostrophe h hold) (by simp)
        · exact char_eq_none hc (by simp [hd])
      | nil =>
        -- the literal would start with the token behind `b`
        cases hr with
        | stop => rfl
        | same => exact hold
        | gap _ hblank _ =>
          refine char_eq_none hc fun _ d hd hmark => ?_
          cases hd
          rw [hmark] at hblank
          exact absurd hblank (by decide)
        | @token _ lexeme _ _ hnext hrest =>
          cases lexeme with
          | nil => exact absurd rfl (next?_sound hnext).2
          | cons d body =>
            by_cases hd : d = '\''
            · subst hd
              rw [List.singleton_append, List.cons_append, char_prefixed_eq_none_iff] at hold ⊢
              exact apostrophe_refuses hnext hrest.thinned.head_not_apostrophe hold
            · exact char_eq_none hc (by simp [hd])
    · exact char_eq_none hc fun h => absurd h hb

/-! ### The front of a respaced text -/

section
variable {kind : TokenKind} {lexeme old new : List Char}

theorem terminals_refuse (h : next? (lexeme ++ old) = some (kind, lexeme, old))
    (hr : Respaced old new) : ∀ terminal ∈ terminals,
      terminal.2 (lexeme ++ old) = none → terminal.2 (lexeme ++ new) = none := by
  have ht : Thinned (lexeme ++ old) (lexeme ++ new) := hr.thinned.append lexeme
  simp only [terminals, List.forall_mem_cons, List.not_mem_nil, false_implies, implies_true,
    and_true]
  exact ⟨lineComment_refuses ht, blockComment_refuses ht, rawString_refuses ht, string_refuses ht,
    char_refuses h hr, lifetime_refuses ht, ident_refuses ht, number_refuses ht,
    space_refuses (next?_sound h).2, punct_refuses ht, single_refuses (by decide) ht,
    single_refuses (by decide) ht, single_refuses (by decide) ht, single_refuses (by decide) ht,
    single_refuses (by decide) ht, single_refuses (by decide) ht⟩

theorem terminals_keep (ht : Thinned old new) : ∀ terminal ∈ terminals,
    (terminal.1 = .space → ∀ c ∈ new.head?, isSpace c = false) →
    (terminal.1 = .lineComment → ∀ c ∈ new.head?, c = '\n') →
    terminal.2 (lexeme ++ old) = some (lexeme, old) →
      terminal.2 (lexeme ++ new) = some (lexeme, new) := by
  simp only [terminals, List.forall_mem_cons, List.not_mem_nil, false_implies, implies_true,
    and_true]
  exact ⟨fun _ hline => lineComment_keeps (hline trivial), fun _ _ => blockComment_keeps new,
    fun _ _ => rawString_keeps new, fun _ _ => string_keeps ht, fun _ _ => char_keeps new,
    fun _ _ => lifetime_keeps ht, fun _ _ => ident_keeps ht, fun _ _ => number_keeps ht,
    fun hspace _ => space_keeps (hspace trivial), fun _ _ => punct_keeps ht,
    fun _ _ => single_keeps new, fun _ _ => single_keeps new, fun _ _ => single_keeps new,
    fun _ _ => single_keeps new, fun _ _ => single_keeps new, fun _ _ => single_keeps new⟩

/-- The front of a respaced text is lexed as the front of the text was. Only blanks and
line comments have to be kept from running on into what follows. -/
theorem next?_respaced (h : next? (lexeme ++ old) = some (kind, lexeme, old))
    (hr : Respaced old new) (hspace : kind = .space → ∀ c ∈ new.head?, isSpace c = false)
    (hline : kind = .lineComment → ∀ c ∈ new.head?, c = '\n') :
    next? (lexeme ++ new) = some (kind, lexeme, new) := by
  obtain ⟨front, terminal, back, hlist, hsome, hfront⟩ := List.findSome?_eq_some_iff.1 h
  have hmem : ∀ t ∈ front ++ terminal :: back, t ∈ terminals := fun t ht => hlist ▸ ht
  obtain ⟨split, hsplit, heq⟩ := Option.map_eq_some_iff.1 hsome
  cases heq
  have hkeep := terminals_keep hr.thinned terminal (hmem terminal (by simp)) hspace hline hsplit
  refine List.findSome?_eq_some_iff.2 ⟨front, terminal, back, hlist, ?_, fun t ht => ?_⟩
  · rw [hkeep]
    rfl
  · have hold := Option.map_eq_none_iff.1 (hfront t ht)
    have hnew := terminals_refuse h hr t (hmem t (List.mem_append_left _ ht)) hold
    rw [hnew]
    rfl

end

end LuaBindings.Terminal
