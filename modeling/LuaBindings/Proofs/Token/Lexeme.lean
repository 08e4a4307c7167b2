import LuaBindings.Proofs.Token.Thinning

/-!
# Lexemes that stay

A terminal that takes a lexeme goes on taking it when what follows the lexeme is
thinned. Comments, raw strings and character literals end by themselves, so anything
may follow them. A quoted string looks for a later quote; names, numbers and
punctuation look at what comes next, where a thinned text has nothing new but blanks.
-/

set_option autoImplicit false

namespace LuaBindings.Terminal

theorem eq_of_prepend_append (front : List Char) {lexeme rest : List Char}
    {split : Option (List Char × List Char)}
    (h : prepend front split = some (front ++ lexeme, rest)) : split = some (lexeme, rest) := by
  obtain ⟨tail, hsplit, heq⟩ := prepend_eq_some h
  rw [hsplit, List.append_cancel_left heq]

theorem prepend_append {front lexeme rest : List Char} {split : Option (List Char × List Char)}
    (h : split = some (lexeme, rest)) : prepend front split = some (front ++ lexeme, rest) := by
  rw [h]
  rfl

theorem run_keeps {p : Char → Bool} {front old new : List Char}
    (h : run p (front ++ old) = (front, old)) (hnew : ∀ c ∈ new.head?, p c = false) :
    run p (front ++ new) = (front, new) := by
  refine run_eq_of_append (fun c hc => ?_) hnew
  have htake : (front ++ old).takeWhile p = front := congrArg Prod.fst h
  rw [← htake] at hc
  exact List.mem_takeWhile_imp hc

/-- A class of characters does not go on behind its run. -/
theorem head_not_of_run {p : Char → Bool} {front old : List Char}
    (h : run p (front ++ old) = (front, old)) : ∀ c ∈ old.head?, p c = false := by
  have hdrop : (front ++ old).dropWhile p = old := congrArg Prod.snd h
  intro c hc
  have hnot := List.head?_dropWhile_not p (front ++ old)
  rw [hdrop, Option.mem_def.1 hc] at hnot
  simpa using hnot

/-- A run of name characters that blanks or the end of the text come to follow. -/
theorem nameRun_keeps {front old new : List Char} (hr : Thinned old new)
    (h : run isNameChar (front ++ old) = (front, old)) :
    run isNameChar (front ++ new) = (front, new) :=
  run_keeps h (hr.head_not (fun _ => isSpace_eq_false_of_isNameChar) (head_not_of_run h))

theorem word_keeps (first : Char → Bool) {lexeme old new : List Char} (hr : Thinned old new)
    (h : word first isNameChar (lexeme ++ old) = some (lexeme, old)) :
    word first isNameChar (lexeme ++ new) = some (lexeme, new) := by
  cases lexeme with
  | nil => exact absurd rfl (word_sound _ _ _ _ _ h).2
  | cons c name =>
    rw [List.cons_append, word] at h ⊢
    split at h
    · rename_i hc
      have hrun := Option.some.inj (eq_of_prepend_append _ h)
      rw [if_pos hc, nameRun_keeps hr hrun]
      rfl
    · cases h

theorem plainName_keeps {lexeme old new : List Char} (hr : Thinned old new)
    (h : plainName (lexeme ++ old) = some (lexeme, old)) :
    plainName (lexeme ++ new) = some (lexeme, new) := word_keeps _ hr h

theorem digits_keeps {lexeme old new : List Char} (hr : Thinned old new)
    (h : digits (lexeme ++ old) = some (lexeme, old)) :
    digits (lexeme ++ new) = some (lexeme, new) := word_keeps _ hr h

theorem lineComment_keeps {lexeme old new : List Char}
    (hnew : ∀ c ∈ new.head?, c = '\n') (h : lineComment (lexeme ++ old) = some (lexeme, old)) :
    lineComment (lexeme ++ new) = some (lexeme, new) := by
  unfold lineComment at h
  split at h
  · obtain ⟨tail, hrun, rfl⟩ := prepend_eq_some h
    have hrest := run_splits (· != '\n') _ _ _ hrun
    rw [← hrest] at hrun
    have hend : ∀ c ∈ new.head?, (c != '\n') = false := fun c hc => by simp [hnew c hc]
    have hkeep := run_keeps (Option.some.inj hrun) hend
    exact prepend_append (congrArg some hkeep)
  · cases h

theorem throughCommentEnd_ne_nil {text lexeme rest : List Char}
    (h : throughCommentEnd text = some (lexeme, rest)) : lexeme ≠ [] := by
  unfold throughCommentEnd at h
  split at h
  · cases h
  · cases h
    simp
  · obtain ⟨tail, _, rfl⟩ := prepend_eq_some h
    simp

theorem throughCommentEnd_keeps {lexeme old : List Char} (new : List Char)
    (h : throughCommentEnd (lexeme ++ old) = some (lexeme, old)) :
    throughCommentEnd (lexeme ++ new) = some (lexeme, new) := by
  generalize htext : lexeme ++ old = text at h
  fun_induction throughCommentEnd text generalizing lexeme with
  | case1 => cases h
  | case2 rest =>
    cases h
    rfl
  | case3 c rest hnot ih =>
    obtain ⟨tail, hsplit, rfl⟩ := prepend_eq_some h
    have hrest : tail ++ old = rest := (List.cons.inj htext).2
    have hkeep := ih hrest hsplit
    rw [List.append_assoc, List.singleton_append, throughCommentEnd, hkeep]
    · rfl
    · intro back hc hback
      cases tail with
      | nil => exact throughCommentEnd_ne_nil hsplit rfl
      | cons d tail =>
        rw [(List.cons.inj hback).1] at hrest
        exact hnot _ hc hrest.symm

theorem blockComment_keeps {lexeme old : List Char} (new : List Char)
    (h : blockComment (lexeme ++ old) = some (lexeme, old)) :
    blockComment (lexeme ++ new) = some (lexeme, new) := by
  unfold blockComment at h
  split at h
  · obtain ⟨tail, hsplit, rfl⟩ := prepend_eq_some h
    rw [← throughCommentEnd_splits _ _ _ hsplit] at hsplit
    exact prepend_append (throughCommentEnd_keeps new hsplit)
  · cases h

theorem throughFence_length {hashes text lexeme rest : List Char}
    (h : throughFence hashes text = some (lexeme, rest)) : hashes.length < lexeme.length := by
  fun_induction throughFence hashes text generalizing lexeme with
  | case1 => cases h
  | case2 =>
    cases h
    simp
  | case3 c rest' _ ih =>
    obtain ⟨tail, hsplit, rfl⟩ := prepend_eq_some h
    have := ih hsplit
    simp only [List.singleton_append, List.length_cons]
    omega

/-- A quote before the end of the literal has all the characters that decide about it
in the literal. -/
theorem throughFence_keeps {hashes lexeme old : List Char} (new : List Char)
    (h : throughFence hashes (lexeme ++ old) = some (lexeme, old)) :
    throughFence hashes (lexeme ++ new) = some (lexeme, new) := by
  generalize htext : lexeme ++ old = text at h
  fun_induction throughFence hashes text generalizing lexeme with
  | case1 => cases h
  | case2 c rest hfence =>
    have hc := hfence.1
    cases h
    simp [throughFence]
  | case3 c rest hnot ih =>
    obtain ⟨tail, hsplit, rfl⟩ := prepend_eq_some h
    have hrest : tail ++ old = rest := (List.cons.inj htext).2
    have hlength := throughFence_length hsplit
    have hnot' : ¬ (c = '"' ∧ hashes <+: tail ++ new) := by
      rintro ⟨hc, hprefix⟩
      have htail : hashes <+: tail :=
        List.prefix_of_prefix_length_le hprefix (List.prefix_append _ _) (by omega)
      rw [← hrest] at hnot
      exact hnot ⟨hc, htail.trans (List.prefix_append _ _)⟩
    rw [List.append_assoc, List.singleton_append, throughFence, if_neg hnot', ih hrest hsplit]
    rfl

theorem fenced_keeps {lexeme old : List Char} (new : List Char)
    (h : fenced (lexeme ++ old) = some (lexeme, old)) :
    fenced (lexeme ++ new) = some (lexeme, new) := by
  unfold fenced at h
  split at h
  · rename_i hashes rest hrun
    obtain ⟨tail, hsplit, rfl⟩ := prepend_eq_some h
    rw [← throughFence_splits _ _ _ _ hsplit] at hsplit
    have hkeep := throughFence_keeps new hsplit
    have hfenced := fenced_append (hashes_of_run hrun) (tail ++ new)
    rw [hkeep] at hfenced
    simpa [prepend] using hfenced
  · cases h

theorem rawString_keeps {lexeme old : List Char} (new : List Char)
    (h : rawString (lexeme ++ old) = some (lexeme, old)) :
    rawString (lexeme ++ new) = some (lexeme, new) := by
  unfold rawString at h
  split at h
  · obtain ⟨tail, hsplit, rfl⟩ := prepend_eq_some h
    rw [← fenced_splits _ _ _ hsplit] at hsplit
    exact prepend_append (fenced_keeps new hsplit)
  · obtain ⟨tail, hsplit, rfl⟩ := prepend_eq_some h
    rw [← fenced_splits _ _ _ hsplit] at hsplit
    exact prepend_append (fenced_keeps new hsplit)
  · cases h

theorem throughQuote_plain {c : Char} (hquote : c ≠ '"') (hslash : c ≠ '\\') (rest : List Char) :
    throughQuote (c :: rest) = prepend [c] (throughQuote rest) := by
  rw [throughQuote]
  · exact hquote
  · exact fun h _ => hslash h
  · exact fun _ _ h _ => hslash h

/-- Whether a quote behind a backslash closes the literal depends on whether there is
another quote behind it. -/
theorem throughQuote_keeps {lexeme old new : List Char} (hr : Thinned old new)
    (h : throughQuote (lexeme ++ old) = some (lexeme, old)) :
    throughQuote (lexeme ++ new) = some (lexeme, new) := by
  generalize htext : lexeme ++ old = text at h
  fun_induction throughQuote text generalizing lexeme with
  | case1 => cases h
  | case2 rest =>
    cases h
    rfl
  | case3 => cases h
  | case4 c rest tail after hsome ih =>
    cases h
    have hrest : tail ++ old = rest := by simpa using htext
    have hkeep := ih hrest hsome
    simp [throughQuote, hkeep]
  | case5 rest hnone _ =>
    cases h
    simp [throughQuote, throughQuote_refuses hr hnone]
  | case6 => cases h
  | case7 c rest hquote hlast hslash ih =>
    obtain ⟨tail, hsplit, rfl⟩ := prepend_eq_some h
    have hrest : tail ++ old = rest := (List.cons.inj htext).2
    have hc : c ≠ '\\' := by
      intro hc
      cases rest with
      | nil => exact hlast hc rfl
      | cons d rest => exact hslash d rest hc rfl
    have hkeep := ih hrest hsplit
    rw [List.append_assoc, List.singleton_append, throughQuote_plain hquote hc, hkeep]
    rfl

theorem string_keeps {lexeme old new : List Char} (hr : Thinned old new)
    (h : string (lexeme ++ old) = some (lexeme, old)) :
    string (lexeme ++ new) = some (lexeme, new) := by
  unfold string at h
  split at h
  · obtain ⟨tail, hsplit, rfl⟩ := prepend_eq_some h
    rw [← throughQuote_splits _ _ _ hsplit] at hsplit
    exact prepend_append (throughQuote_keeps hr hsplit)
  · obtain ⟨tail, hsplit, rfl⟩ := prepend_eq_some h
    rw [← throughQuote_splits _ _ _ hsplit] at hsplit
    exact prepend_append (throughQuote_keeps hr hsplit)
  · cases h

theorem unicodeEscape_keeps {lexeme old : List Char} (new : List Char)
    (h : unicodeEscape (lexeme ++ old) = some (lexeme, old)) :
    unicodeEscape (lexeme ++ new) = some (lexeme, new) := by
  unfold unicodeEscape at h
  split at h
  · split at h
    · rename_i digits rest' hrun
      split at h
      · rename_i hlength
        cases h
        have hdigits : ∀ c ∈ digits, isHexDigit c = true := by
          rw [← show List.takeWhile isHexDigit _ = digits from congrArg Prod.fst hrun]
          exact fun c hc => List.mem_takeWhile_imp hc
        have hrun' : run isHexDigit (digits ++ '\x7d' :: new) = (digits, '\x7d' :: new) :=
          run_eq_of_append hdigits (by simp; decide)
        simp [unicodeEscape, hrun', hlength]
      · cases h
    · cases h
  · cases h

theorem byteEscape_keeps {lexeme old : List Char} (new : List Char)
    (h : byteEscape (lexeme ++ old) = some (lexeme, old)) :
    byteEscape (lexeme ++ new) = some (lexeme, new) := by
  unfold byteEscape at h
  split at h
  · split at h
    · rename_i hhex
      cases h
      simp [byteEscape, hhex]
    · cases h
  · cases h

theorem simpleEscape_keeps {lexeme old : List Char} (new : List Char)
    (h : simpleEscape (lexeme ++ old) = some (lexeme, old)) :
    simpleEscape (lexeme ++ new) = some (lexeme, new) := by
  unfold simpleEscape at h
  split at h
  · split at h
    · cases h
    · rename_i hfeed
      cases h
      simp [simpleEscape, hfeed]
  · cases h

theorem plainChar_keeps {lexeme old : List Char} (new : List Char)
    (h : plainChar (lexeme ++ old) = some (lexeme, old)) :
    plainChar (lexeme ++ new) = some (lexeme, new) := by
  unfold plainChar at h
  split at h
  · split at h
    · cases h
    · rename_i hplain
      cases h
      simp [plainChar, hplain]
  · cases h

theorem closed_keeps {content : Recogniser} (hsplits : content.Splits)
    (hcontent : ∀ lexeme old new, content (lexeme ++ old) = some (lexeme, old) →
      content (lexeme ++ new) = some (lexeme, new))
    {lexeme old : List Char} (new : List Char)
    (h : closed content (lexeme ++ old) = some (lexeme, old)) :
    closed content (lexeme ++ new) = some (lexeme, new) := by
  unfold closed at h
  split at h
  · rename_i inner rest hinner
    cases h
    rw [← hsplits _ _ _ hinner] at hinner
    have hkeep := hcontent _ _ ('\'' :: new) hinner
    rw [List.append_assoc, List.singleton_append, closed, hkeep]
    rfl
  · cases h

/-- The four contents of a character literal exclude each other. -/
theorem closed_byteEscape_excludes {text : List Char} {split : List Char × List Char}
    (h : closed byteEscape text = some split) : closed unicodeEscape text = none := by
  unfold closed byteEscape at h
  split at h
  · rename_i hsplit
    split at hsplit
    · rfl
    · cases hsplit
  · cases h

theorem closed_simpleEscape_excludes {text : List Char} {split : List Char × List Char}
    (h : closed simpleEscape text = some split) :
    closed unicodeEscape text = none ∧ closed byteEscape text = none := by
  unfold closed simpleEscape at h
  split at h
  · rename_i hsplit
    split at hsplit
    · rename_i c rest
      split at hsplit
      · cases hsplit
      · cases hsplit
        constructor
        · simp [closed, unicodeEscape]
        · have hnone : ∀ rest, byteEscape ('\\' :: c :: '\'' :: rest) = none := by
            intro rest
            unfold byteEscape
            split
            · rename_i heq
              simp only [List.cons.injEq] at heq
              rw [← heq.2.2.1]
              exact if_neg fun hhex => absurd hhex.1 (by decide)
            · rfl
          rw [closed, hnone]
    · cases hsplit
  · cases h

theorem closed_plainChar_excludes {text : List Char} {split : List Char × List Char}
    (h : closed plainChar text = some split) :
    closed unicodeEscape text = none ∧ closed byteEscape text = none ∧
      closed simpleEscape text = none := by
  unfold closed plainChar at h
  split at h
  · rename_i hsplit
    split at hsplit
    · rename_i c rest
      split at hsplit
      · cases hsplit
      · rename_i hplain
        have hc : c ≠ '\\' := fun hc => hplain (Or.inl hc)
        simp [closed, unicodeEscape, byteEscape, simpleEscape, hc]
    · cases hsplit
  · cases h

theorem charBody_keeps {lexeme old : List Char} (new : List Char)
    (h : charBody (lexeme ++ old) = some (lexeme, old)) :
    charBody (lexeme ++ new) = some (lexeme, new) := by
  simp only [charBody, List.findSome?_cons, List.findSome?_nil] at h ⊢
  split at h
  · rename_i hsome
    cases h
    rw [closed_keeps unicodeEscape_splits (fun _ _ => unicodeEscape_keeps) new hsome]
  split at h
  · rename_i hsome
    cases h
    have hkeep := closed_keeps byteEscape_splits (fun _ _ => byteEscape_keeps) new hsome
    rw [closed_byteEscape_excludes hkeep, hkeep]
  split at h
  · rename_i hsome
    cases h
    have hkeep := closed_keeps simpleEscape_splits (fun _ _ => simpleEscape_keeps) new hsome
    obtain ⟨hunicode, hbyte⟩ := closed_simpleEscape_excludes hkeep
    rw [hunicode, hbyte, hkeep]
  split at h
  · rename_i hsome
    cases h
    have hkeep := closed_keeps plainChar_splits (fun _ _ => plainChar_keeps) new hsome
    obtain ⟨hunicode, hbyte, hsimple⟩ := closed_plainChar_excludes hkeep
    rw [hunicode, hbyte, hsimple, hkeep]
  · cases h

theorem char_keeps {lexeme old : List Char} (new : List Char)
    (h : char (lexeme ++ old) = some (lexeme, old)) :
    char (lexeme ++ new) = some (lexeme, new) := by
  unfold char at h
  split at h
  · obtain ⟨tail, hsplit, rfl⟩ := prepend_eq_some h
    rw [← charBody_splits _ _ _ hsplit] at hsplit
    exact prepend_append (charBody_keeps new hsplit)
  · obtain ⟨tail, hsplit, rfl⟩ := prepend_eq_some h
    rw [← charBody_splits _ _ _ hsplit] at hsplit
    exact prepend_append (charBody_keeps new hsplit)
  · cases h

theorem lifetime_keeps {lexeme old new : List Char} (hr : Thinned old new)
    (h : lifetime (lexeme ++ old) = some (lexeme, old)) :
    lifetime (lexeme ++ new) = some (lexeme, new) := by
  unfold lifetime at h
  split at h
  · obtain ⟨tail, hsplit, rfl⟩ := prepend_eq_some h
    rw [← plainName_sound.splits _ _ _ hsplit] at hsplit
    exact prepend_append (plainName_keeps hr hsplit)
  · cases h

theorem rawName_keeps {lexeme old new : List Char} (hr : Thinned old new)
    (h : rawName (lexeme ++ old) = some (lexeme, old)) :
    rawName (lexeme ++ new) = some (lexeme, new) := by
  unfold rawName at h
  split at h
  · obtain ⟨tail, hsplit, rfl⟩ := prepend_eq_some h
    rw [← plainName_sound.splits _ _ _ hsplit] at hsplit
    exact prepend_append (plainName_keeps hr hsplit)
  · cases h

theorem ident_keeps {lexeme old new : List Char} (hr : Thinned old new)
    (h : ident (lexeme ++ old) = some (lexeme, old)) :
    ident (lexeme ++ new) = some (lexeme, new) := by
  unfold ident at h ⊢
  rcases Option.or_eq_some_iff.1 h with hraw | ⟨hraw, hplain⟩
  · rw [rawName_keeps hr hraw]
    rfl
  · rw [rawName_refuses (hr.append lexeme) hraw, plainName_keeps hr hplain]
    rfl

theorem fraction_keeps {lexeme old new : List Char} (hr : Thinned old new)
    (h : fraction (lexeme ++ old) = some (lexeme, old)) :
    fraction (lexeme ++ new) = some (lexeme, new) := by
  unfold fraction at h
  split at h
  · obtain ⟨tail, hsplit, rfl⟩ := prepend_eq_some h
    rw [← digits_sound.splits _ _ _ hsplit] at hsplit
    exact prepend_append (digits_keeps hr hsplit)
  · cases h

theorem number_keeps {lexeme old new : List Char} (hr : Thinned old new)
    (h : number (lexeme ++ old) = some (lexeme, old)) :
    number (lexeme ++ new) = some (lexeme, new) := by
  unfold number at h
  split at h
  · cases h
  · rename_i whole rest hwhole
    obtain ⟨tail, hsplit, rfl⟩ := prepend_eq_some h
    have hrest := optionalFraction_splits _ _ _ hsplit
    rw [← hrest] at hsplit hwhole
    rw [List.append_assoc] at hwhole
    have hkeep := digits_keeps (hr.append tail) hwhole
    rw [List.append_assoc, number, hkeep]
    change prepend whole ((fraction (tail ++ new)).or (some ([], tail ++ new))) = _
    rcases Option.or_eq_some_iff.1 hsplit with hfraction | ⟨hnone, hempty⟩
    · rw [fraction_keeps hr hfraction]
      rfl
    · cases hempty
      rw [List.nil_append, fraction_refuses hr hnone]
      rfl

theorem single_keeps {mark : Char} {lexeme old : List Char} (new : List Char)
    (h : single mark (lexeme ++ old) = some (lexeme, old)) :
    single mark (lexeme ++ new) = some (lexeme, new) := by
  unfold single at h
  split at h
  · split at h
    · cases h
      simp [single]
    · cases h
  · cases h

theorem punct_one {c : Char} (hc : c ∈ punctChars) {rest : List Char}
    (hrest : ∀ d ∈ rest.head?, (c, d) ∉ punctPairs) : punct (c :: rest) = some ([c], rest) := by
  cases rest with
  | nil => simp [punct, hc]
  | cons d rest => simp [punct, hc, hrest d rfl]

theorem punctPairs_head_not {c : Char} {old new : List Char} (hr : Thinned old new)
    (hold : ∀ d ∈ old.head?, (c, d) ∉ punctPairs) : ∀ d ∈ new.head?, (c, d) ∉ punctPairs := by
  have hsolid : ∀ d, decide ((c, d) ∈ punctPairs) = true → isSpace d = false := by
    intro d hd
    simp only [punctPairs, List.mem_cons, Prod.mk.injEq, List.not_mem_nil, or_false,
      decide_eq_true_eq] at hd
    rcases hd with ⟨_, rfl⟩ | ⟨_, rfl⟩ | ⟨_, rfl⟩ <;> decide
  simpa using hr.head_not hsolid (by simpa using hold)

theorem punct_keeps {lexeme old new : List Char} (hr : Thinned old new)
    (h : punct (lexeme ++ old) = some (lexeme, old)) :
    punct (lexeme ++ new) = some (lexeme, new) := by
  unfold punct at h
  split at h
  · rename_i c d rest
    split at h
    · rename_i hpair
      cases h
      simp [punct, hpair]
    · rename_i hpair
      split at h
      · rename_i hc
        cases h
        exact punct_one hc (punctPairs_head_not hr (by simpa using hpair))
      · cases h
  · rename_i c
    split at h
    · rename_i hc
      cases h
      exact punct_one hc (punctPairs_head_not hr (by simp))
    · cases h
  · cases h

theorem space_keeps {lexeme old new : List Char} (hnew : ∀ c ∈ new.head?, isSpace c = false)
    (h : space (lexeme ++ old) = some (lexeme, old)) :
    space (lexeme ++ new) = some (lexeme, new) := by
  cases lexeme with
  | nil => exact absurd rfl (space_sound _ _ _ h).2
  | cons c tail =>
    rw [List.cons_append, space, word] at h ⊢
    split at h
    · rename_i hc
      have hrun := Option.some.inj (eq_of_prepend_append _ h)
      rw [if_pos hc, run_keeps hrun hnew]
      rfl
    · cases h

/-! ### What a front was taken by -/

/-- What stands at the front of a text was taken by a terminal of its kind. -/
theorem exists_terminal {kind : TokenKind} {text : List Char} {split : List Char × List Char}
    (h : next? text = some (kind, split)) : ∃ f, (kind, f) ∈ terminals ∧ f text = some split := by
  obtain ⟨⟨kind', f⟩, hmem, hsome⟩ := List.exists_of_findSome?_eq_some h
  obtain ⟨split', hsplit, heq⟩ := Option.map_eq_some_iff.1 hsome
  cases heq
  exact ⟨f, hmem, hsplit⟩

theorem blockComment_of_next? {text : List Char} {split : List Char × List Char}
    (h : next? text = some (.blockComment, split)) : blockComment text = some split := by
  obtain ⟨f, hmem, hsplit⟩ := exists_terminal h
  simp only [terminals, List.mem_cons, List.not_mem_nil, Prod.mk.injEq, reduceCtorEq, false_and,
    or_false, false_or, true_and] at hmem
  rwa [hmem] at hsplit

theorem lineComment_of_next? {text : List Char} {split : List Char × List Char}
    (h : next? text = some (.lineComment, split)) : lineComment text = some split := by
  obtain ⟨f, hmem, hsplit⟩ := exists_terminal h
  simp only [terminals, List.mem_cons, List.not_mem_nil, Prod.mk.injEq, reduceCtorEq, false_and,
    or_false, true_and] at hmem
  rwa [hmem] at hsplit

theorem space_of_next? {text : List Char} {split : List Char × List Char}
    (h : next? text = some (.space, split)) : space text = some split := by
  obtain ⟨f, hmem, hsplit⟩ := exists_terminal h
  simp only [terminals, List.mem_cons, List.not_mem_nil, Prod.mk.injEq, reduceCtorEq, false_and,
    or_false, false_or, true_and] at hmem
  rwa [hmem] at hsplit

/-- A line comment ends before a line feed. -/
theorem head_of_lineComment {lexeme rest : List Char}
    (h : lineComment (lexeme ++ rest) = some (lexeme, rest)) : ∀ c ∈ rest.head?, c = '\n' := by
  unfold lineComment at h
  split at h
  · obtain ⟨tail, hrun, rfl⟩ := prepend_eq_some h
    rw [← run_splits (· != '\n') _ _ _ hrun] at hrun
    intro c hc
    simpa using head_not_of_run (Option.some.inj hrun) c hc
  · cases h

/-- A run of blanks ends before something else. -/
theorem head_of_space {lexeme rest : List Char}
    (h : space (lexeme ++ rest) = some (lexeme, rest)) : ∀ c ∈ rest.head?, isSpace c = false := by
  cases lexeme with
  | nil => exact absurd rfl (space_sound _ _ _ h).2
  | cons c tail =>
    rw [List.cons_append, space, word] at h
    split at h
    · exact head_not_of_run (Option.some.inj (eq_of_prepend_append _ h))
    · cases h

end LuaBindings.Terminal
