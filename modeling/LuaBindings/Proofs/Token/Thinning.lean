import Mathlib.Data.List.Infix
import Mathlib.Data.List.TakeWhile
import Mathlib.Tactic.Common
import LuaBindings.Token.Terminal

/-!
# Thinned texts

A text is thinned by putting a blank in place of a stretch of it, here and there,
and by leaving off its end. Nothing that holds no blank comes to stand in a thinned
text that did not stand in the text before. So a terminal that refused the text
refuses the thinned one, unless what it takes may hold blanks near its front; of
these there is only the character literal, and it is not treated here.
-/

set_option autoImplicit false

namespace LuaBindings.Terminal

inductive Thinned : List Char → List Char → Prop
  | stop (old : List Char) : Thinned old []
  | keep (c : Char) {old new : List Char} : Thinned old new → Thinned (c :: old) (c :: new)
  | gap (stretch : List Char) {blank : Char} {old new : List Char} :
    isSpace blank = true → Thinned old new → Thinned (stretch ++ old) (blank :: new)

def Solid (text : List Char) : Prop := ∀ c ∈ text, isSpace c = false

instance (text : List Char) : Decidable (Solid text) :=
  List.decidableBAll _ text

theorem isSpace_eq_false_of_isNameChar {c : Char} (h : isNameChar c = true) :
    isSpace c = false := by
  by_contra hspace
  simp only [isSpace, List.mem_cons, List.not_mem_nil, or_false, Bool.not_eq_false,
    decide_eq_true_eq] at hspace
  rcases hspace with rfl | rfl | rfl | rfl | rfl <;> exact absurd h (by decide)

theorem isNameChar_of_isNameStart {c : Char} (h : isNameStart c = true) : isNameChar c = true := by
  simp only [isNameStart, isNameChar, Char.isAlphanum, Bool.or_eq_true] at h ⊢
  tauto

theorem isNameChar_of_isDigit {c : Char} (h : c.isDigit = true) : isNameChar c = true := by
  simp [isNameChar, Char.isAlphanum, h]

theorem isSpace_eq_false_of_isNameStart {c : Char} (h : isNameStart c = true) :
    isSpace c = false :=
  isSpace_eq_false_of_isNameChar (isNameChar_of_isNameStart h)

theorem isSpace_eq_false_of_isDigit {c : Char} (h : c.isDigit = true) : isSpace c = false :=
  isSpace_eq_false_of_isNameChar (isNameChar_of_isDigit h)

theorem solid_cons {c : Char} {text : List Char} :
    Solid (c :: text) ↔ isSpace c = false ∧ Solid text := by
  simp [Solid]

namespace Thinned

theorem refl (text : List Char) : Thinned text text := by
  induction text with
  | nil => exact .stop _
  | cons c text ih => exact ih.keep c

theorem append {old new : List Char} (h : Thinned old new) (front : List Char) :
    Thinned (front ++ old) (front ++ new) := by
  induction front with
  | nil => exact h
  | cons c front ih => exact ih.keep c

/-- A character that is no blank has been kept. -/
theorem of_cons (c : Char) {old new : List Char} (h : Thinned old (c :: new))
    (hc : isSpace c = false) : ∃ old', old = c :: old' ∧ Thinned old' new := by
  cases h with
  | keep _ h => exact ⟨_, rfl, h⟩
  | gap _ hblank _ => rw [hc] at hblank; cases hblank

/-- A front without blanks has been kept. -/
theorem of_append (front : List Char) {old new : List Char} (h : Thinned old (front ++ new))
    (hfront : Solid front) : ∃ old', old = front ++ old' ∧ Thinned old' new := by
  induction front generalizing old with
  | nil => exact ⟨old, rfl, h⟩
  | cons c front ih =>
    obtain ⟨hc, hfront⟩ := solid_cons.1 hfront
    obtain ⟨old', rfl, hkept⟩ := h.of_cons c hc
    obtain ⟨rest, rfl, hrest⟩ := ih hkept hfront
    exact ⟨rest, rfl, hrest⟩

/-- Behind any front stands a thinned end of the old text. -/
theorem suffix {front old new : List Char} (h : Thinned old (front ++ new)) :
    ∃ front' old', old = front' ++ old' ∧ Thinned old' new := by
  induction front generalizing old with
  | nil => exact ⟨[], old, rfl, h⟩
  | cons c front ih =>
    cases h with
    | keep _ hkept =>
      obtain ⟨front', old', rfl, hrest⟩ := ih hkept
      exact ⟨c :: front', old', rfl, hrest⟩
    | gap stretch _ hkept =>
      obtain ⟨front', old', rfl, hrest⟩ := ih hkept
      exact ⟨stretch ++ front', old', by simp, hrest⟩

/-- What holds no blank has stood in the old text. -/
theorem infix_of_infix (pattern : List Char) {old new : List Char} (h : Thinned old new)
    (hsolid : Solid pattern) (hnew : pattern <:+: new) : pattern <:+: old := by
  obtain ⟨front, back, rfl⟩ := hnew
  rw [List.append_assoc] at h
  obtain ⟨front', old', rfl, hend⟩ := h.suffix
  obtain ⟨rest, rfl, _⟩ := hend.of_append pattern hsolid
  exact ⟨front', rest, by simp⟩

/-- A class without blanks that does not go on in the old text does not go on in the
thinned one. -/
theorem head_not {p : Char → Bool} (hp : ∀ c, p c = true → isSpace c = false)
    {old new : List Char} (h : Thinned old new) (hold : ∀ c ∈ old.head?, p c = false) :
    ∀ c ∈ new.head?, p c = false := by
  intro c hc
  by_contra hpc
  simp only [Bool.not_eq_false] at hpc
  obtain ⟨rest, rfl⟩ : ∃ rest, new = c :: rest := by
    cases new with
    | nil => cases hc
    | cons d rest => exact ⟨rest, by rw [Option.mem_some.1 hc]⟩
  obtain ⟨old', rfl, _⟩ := h.of_cons c (hp c hpc)
  rw [hold c rfl] at hpc
  cases hpc

end Thinned

/-! ### When a search for an end fails -/

theorem throughCommentEnd_eq_none_iff (text : List Char) :
    throughCommentEnd text = none ↔ ¬ ['*', '/'] <:+: text := by
  fun_induction throughCommentEnd text with
  | case1 => simp
  | case2 rest => simp [show ['*', '/'] <:+: '*' :: '/' :: rest from ⟨[], rest, rfl⟩]
  | case3 c rest hnot ih =>
    have hfront : ¬ ['*', '/'] <+: c :: rest := by
      rintro ⟨back, heq⟩
      simp only [List.cons_append, List.nil_append, List.cons.injEq] at heq
      exact hnot back heq.1.symm heq.2.symm
    rw [List.infix_cons_iff, or_iff_right hfront, ← ih]
    cases throughCommentEnd rest <;> simp [prepend]

theorem throughFence_eq_none_iff (hashes text : List Char) :
    throughFence hashes text = none ↔ ¬ ('"' :: hashes) <:+: text := by
  fun_induction throughFence hashes text with
  | case1 => simp
  | case2 c rest h =>
    have hfront : ('"' :: hashes) <+: c :: rest := by
      rw [h.1]
      exact (List.cons_prefix_cons).2 ⟨rfl, h.2⟩
    simp [hfront.isInfix]
  | case3 c rest hnot ih =>
    have hfront : ¬ ('"' :: hashes) <+: c :: rest := by
      rw [List.cons_prefix_cons]
      rintro ⟨hc, hhashes⟩
      exact hnot ⟨hc.symm, hhashes⟩
    rw [List.infix_cons_iff, or_iff_right hfront, ← ih]
    cases throughFence hashes rest <;> simp [prepend]

theorem throughQuote_eq_none_iff (text : List Char) : throughQuote text = none ↔ '"' ∉ text := by
  fun_induction throughQuote text with
  | case1 => simp
  | case2 => simp
  | case3 => simp
  | case4 c rest lexeme after hsome ih =>
    rw [hsome] at ih
    simp only [reduceCtorEq, false_iff, not_not] at ih
    simp [ih]
  | case5 rest _ _ => simp
  | case6 c rest hnone hc ih =>
    have hrest := ih.1 hnone
    simp only [List.mem_cons, not_or, true_iff]
    exact ⟨by decide, fun h => hc h.symm, hrest⟩
  | case7 c rest hquote _ _ ih =>
    have hc : '"' ≠ c := fun h => hquote h.symm
    rw [List.mem_cons, or_iff_right hc, ← ih]
    cases throughQuote rest <;> simp [prepend]

theorem prepend_eq_none_iff {front : List Char} {split : Option (List Char × List Char)} :
    prepend front split = none ↔ split = none := by
  cases split <;> simp [prepend]

theorem run_eq_of_append {p : Char → Bool} {front rest : List Char}
    (hfront : ∀ c ∈ front, p c = true) (hrest : ∀ c ∈ rest.head?, p c = false) :
    run p (front ++ rest) = (front, rest) := by
  have htake : rest.takeWhile p = [] := by
    cases rest with
    | nil => rfl
    | cons c rest => simp [hrest c rfl]
  have hdrop : rest.dropWhile p = rest := by
    cases rest with
    | nil => rfl
    | cons c rest => simp [hrest c rfl]
  rw [run, List.takeWhile_append_of_pos hfront, List.dropWhile_append_of_pos hfront, htake, hdrop,
    List.append_nil]

/-! ### Terminals that go on refusing -/

theorem lineComment_refuses {old new : List Char} (h : Thinned old new)
    (hold : lineComment old = none) : lineComment new = none := by
  unfold lineComment
  split
  · obtain ⟨old', rfl, _⟩ := h.of_append ['/', '/'] (by decide)
    cases hold
  · rfl

theorem blockComment_refuses {old new : List Char} (h : Thinned old new)
    (hold : blockComment old = none) : blockComment new = none := by
  unfold blockComment
  split
  · rename_i rest
    obtain ⟨old', rfl, hrest⟩ := h.of_append ['/', '*'] (by decide)
    change prepend ['/', '*'] (throughCommentEnd old') = none at hold
    rw [prepend_eq_none_iff, throughCommentEnd_eq_none_iff] at hold ⊢
    exact fun hin => hold (hrest.infix_of_infix _ (by decide) hin)
  · rfl

theorem fenced_append {hashes : List Char} (hhashes : ∀ c ∈ hashes, (c == '#') = true)
    (rest : List Char) :
    fenced (hashes ++ '"' :: rest) = prepend (hashes ++ ['"']) (throughFence hashes rest) := by
  rw [fenced, run_eq_of_append hhashes (by simp)]
  rfl

theorem hashes_of_run {text hashes rest : List Char} (h : run (· == '#') text = (hashes, rest)) :
    ∀ c ∈ hashes, (c == '#') = true := by
  have htake : text.takeWhile (· == '#') = hashes := congrArg Prod.fst h
  rw [← htake]
  exact fun c hc => List.mem_takeWhile_imp (p := (· == '#')) hc

theorem solid_fence {hashes : List Char} (hhashes : ∀ c ∈ hashes, (c == '#') = true) :
    Solid ('"' :: hashes) := by
  refine solid_cons.2 ⟨by decide, fun c hc => ?_⟩
  rw [eq_of_beq (hhashes c hc)]
  decide

theorem fenced_refuses {old new : List Char} (h : Thinned old new)
    (hold : fenced old = none) : fenced new = none := by
  unfold fenced
  split
  · rename_i hashes rest hrun
    have hhashes := hashes_of_run hrun
    have hnew : hashes ++ '"' :: rest = new := by
      have := run_append (· == '#') new
      rwa [hrun] at this
    have hsolid := solid_cons.1 (solid_fence hhashes)
    rw [← hnew] at h
    obtain ⟨old', rfl, hquote⟩ := h.of_append hashes hsolid.2
    obtain ⟨old', rfl, hrest⟩ := hquote.of_cons '"' hsolid.1
    rw [fenced_append hhashes] at hold
    rw [prepend_eq_none_iff, throughFence_eq_none_iff] at hold ⊢
    exact fun hin => hold (hrest.infix_of_infix _ (solid_fence hhashes) hin)
  · rfl

theorem rawString_refuses {old new : List Char} (h : Thinned old new)
    (hold : rawString old = none) : rawString new = none := by
  unfold rawString
  split
  · obtain ⟨old', rfl, hrest⟩ := h.of_append ['b', 'r'] (by decide)
    change prepend ['b', 'r'] (fenced old') = none at hold
    rw [prepend_eq_none_iff] at hold ⊢
    exact fenced_refuses hrest hold
  · obtain ⟨old', rfl, hrest⟩ := h.of_append ['r'] (by decide)
    change prepend ['r'] (fenced old') = none at hold
    rw [prepend_eq_none_iff] at hold ⊢
    exact fenced_refuses hrest hold
  · rfl

theorem throughQuote_refuses {old new : List Char} (h : Thinned old new)
    (hold : throughQuote old = none) : throughQuote new = none := by
  rw [throughQuote_eq_none_iff] at hold ⊢
  intro hmem
  have hin := h.infix_of_infix ['"'] (by decide) ((List.singleton_infix_iff _ _).2 hmem)
  exact hold ((List.singleton_infix_iff _ _).1 hin)

theorem string_refuses {old new : List Char} (h : Thinned old new)
    (hold : string old = none) : string new = none := by
  unfold string
  split
  · obtain ⟨old', rfl, hrest⟩ := h.of_append ['b', '"'] (by decide)
    change prepend ['b', '"'] (throughQuote old') = none at hold
    rw [prepend_eq_none_iff] at hold ⊢
    exact throughQuote_refuses hrest hold
  · obtain ⟨old', rfl, hrest⟩ := h.of_append ['"'] (by decide)
    change prepend ['"'] (throughQuote old') = none at hold
    rw [prepend_eq_none_iff] at hold ⊢
    exact throughQuote_refuses hrest hold
  · rfl

theorem word_eq_none_iff {first more : Char → Bool} {text : List Char} :
    word first more text = none ↔ ∀ c ∈ text.head?, first c = false := by
  cases text with
  | nil => simp [word]
  | cons c rest => cases hc : first c <;> simp [word, hc, prepend]

theorem plainName_eq_none_iff {text : List Char} :
    plainName text = none ↔ ∀ c ∈ text.head?, isNameStart c = false := word_eq_none_iff

theorem digits_eq_none_iff {text : List Char} :
    digits text = none ↔ ∀ c ∈ text.head?, c.isDigit = false := word_eq_none_iff

theorem plainName_refuses {old new : List Char} (h : Thinned old new)
    (hold : plainName old = none) : plainName new = none := by
  rw [plainName_eq_none_iff] at hold ⊢
  exact h.head_not (fun _ => isSpace_eq_false_of_isNameStart) hold

theorem digits_refuses {old new : List Char} (h : Thinned old new)
    (hold : digits old = none) : digits new = none := by
  rw [digits_eq_none_iff] at hold ⊢
  exact h.head_not (fun _ => isSpace_eq_false_of_isDigit) hold

theorem lifetime_refuses {old new : List Char} (h : Thinned old new)
    (hold : lifetime old = none) : lifetime new = none := by
  unfold lifetime
  split
  · obtain ⟨old', rfl, hrest⟩ := h.of_cons '\'' (by decide)
    change prepend ['\''] (plainName old') = none at hold
    rw [prepend_eq_none_iff] at hold ⊢
    exact plainName_refuses hrest hold
  · rfl

theorem rawName_refuses {old new : List Char} (h : Thinned old new)
    (hold : rawName old = none) : rawName new = none := by
  unfold rawName
  split
  · obtain ⟨old', rfl, hrest⟩ := h.of_append ['r', '#'] (by decide)
    change prepend ['r', '#'] (plainName old') = none at hold
    rw [prepend_eq_none_iff] at hold ⊢
    exact plainName_refuses hrest hold
  · rfl

theorem fraction_refuses {old new : List Char} (h : Thinned old new)
    (hold : fraction old = none) : fraction new = none := by
  unfold fraction
  split
  · obtain ⟨old', rfl, hrest⟩ := h.of_cons '.' (by decide)
    change prepend ['.'] (digits old') = none at hold
    rw [prepend_eq_none_iff] at hold ⊢
    exact digits_refuses hrest hold
  · rfl

theorem ident_refuses {old new : List Char} (h : Thinned old new)
    (hold : ident old = none) : ident new = none := by
  unfold ident at hold ⊢
  rw [Option.or_eq_none_iff] at hold ⊢
  exact ⟨rawName_refuses h hold.1, plainName_refuses h hold.2⟩

theorem number_refuses {old new : List Char} (h : Thinned old new)
    (hold : number old = none) : number new = none := by
  have hdigits : digits old = none := by
    unfold number at hold
    split at hold
    · assumption
    · rw [prepend_eq_none_iff, Option.or_eq_none_iff] at hold
      cases hold.2
  simp [number, digits_refuses h hdigits]

theorem space_refuses {lexeme old new : List Char} (hlexeme : lexeme ≠ [])
    (hold : space (lexeme ++ old) = none) : space (lexeme ++ new) = none := by
  cases lexeme with
  | nil => exact absurd rfl hlexeme
  | cons c body =>
    rw [List.cons_append, space, word] at hold ⊢
    split at hold
    · cases hold
    · rename_i hc
      rw [if_neg hc]

theorem punct_eq_none_iff {text : List Char} :
    punct text = none ↔ ∀ c ∈ text.head?, decide (c ∈ punctChars) = false := by
  have hpair : ∀ pair ∈ punctPairs, pair.1 ∈ punctChars := by decide
  match text with
  | [] => simp [punct]
  | [c] => simp [punct]
  | c :: d :: text =>
    by_cases hc : (c, d) ∈ punctPairs
    · simp [punct, hc, hpair _ hc]
    · simp [punct, hc]

theorem punct_refuses {old new : List Char} (h : Thinned old new) (hold : punct old = none) :
    punct new = none := by
  rw [punct_eq_none_iff] at hold ⊢
  refine h.head_not (fun c hc => ?_) hold
  have hall : Solid punctChars := by decide
  exact hall c (of_decide_eq_true hc)

theorem single_refuses {mark : Char} (hmark : isSpace mark = false) {old new : List Char}
    (h : Thinned old new) (hold : single mark old = none) : single mark new = none := by
  have hiff : ∀ text, single mark text = none ↔ ∀ c ∈ text.head?, decide (c = mark) = false := by
    intro text
    cases text <;> simp [single]
  rw [hiff] at hold ⊢
  refine h.head_not (fun c hc => ?_) hold
  rw [of_decide_eq_true hc]
  exact hmark

end LuaBindings.Terminal
