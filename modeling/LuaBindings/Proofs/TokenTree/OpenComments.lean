import LuaBindings.Proofs.Token.Lookahead
import LuaBindings.Proofs.TokenTree.Placement

/-!
# Comments that never end

Where a block comment is opened and never closed, reading fails there if an end mark follows
that closes another comment. If none follows, the slash and the star are read as punctuation,
and what stands behind them as code (`TokenTree.ofText_eq_unterminated_iff`).
-/

set_option autoImplicit false

namespace LuaBindings

namespace NestingScan

/-! ### What is read before a place -/

section
variable {front rest : List Char}

theorem Reads.scanFrom_eq (h : Reads front rest) (here : Location) :
    ∃ tokens, scanFrom here (front ++ rest) =
      ⟨tokens ++ (scanFrom (here.after front) rest).tokens,
        (scanFrom (here.after front) rest).fault⟩ := by
  induction h generalizing here with
  | nil rest => exact ⟨[], rfl⟩
  | @token kind lexeme front rest hstep _ ih =>
    obtain ⟨tokens, hscan⟩ := ih (here.after lexeme)
    rw [List.append_assoc, scanFrom_token hstep, hscan, Location.after_append]
    exact ⟨_ :: tokens, rfl⟩

/-- Lexing fails behind whole tokens: at a character that begins none, or at a comment that
never ends. -/
theorem Cut.exists_reads {here : Location} {text : List Char} {tokens : List Token}
    {fault : Option Diagnostic} (h : Cut here text tokens fault) {d : Diagnostic}
    (hfault : fault = some d) :
    ∃ front rest, text = front ++ rest ∧ Reads front rest ∧
      ((∃ c back, rest = c :: back ∧ step rest = .stuck ∧
          d = .atPlace (here.after front)
            (.untokenizable (.strayCharacter c) (here.after front))) ∨
        (step rest = .unterminated ∧ d = .atPlace (here.after front) .unterminatedComment)) := by
  induction h with
  | @stuck here text hstep =>
    cases text with
    | nil => cases hfault
    | cons c back =>
      cases hfault
      exact ⟨[], _, rfl, .nil _, .inl ⟨c, back, rfl, hstep, rfl⟩⟩
  | unterminated hstep =>
    cases hfault
    exact ⟨[], _, rfl, .nil _, .inr ⟨hstep, rfl⟩⟩
  | @token here kind lexeme rest tokens fault hstep _ ih =>
    obtain ⟨front, rest, rfl, hreads, hends⟩ := ih hfault
    rw [← Location.after_append] at hends
    exact ⟨lexeme ++ front, rest, (List.append_assoc _ _ _).symm, .token hstep hreads, hends⟩

end
end NestingScan

namespace Terminal

/-- A block comment is opened, and as the marks are counted from there, it is never closed. -/
def NeverCloses (text : List Char) : Prop :=
  ['/', '*'] <+: text ∧ ∀ n, 2 ≤ n → openMarks (text.take n) ≠ 0

theorem neverCloses_iff {text : List Char} :
    NeverCloses text ↔ ['/', '*'] <+: text ∧ countedComment text = none := by
  refine and_congr_right fun hopen => ?_
  rw [countedComment, if_pos hopen, Option.map_eq_none_iff, List.find?_eq_none]
  simp only [List.mem_range, Bool.and_eq_true, decide_eq_true_eq, not_and]
  constructor
  · exact fun h n _ => h n
  · intro h n hn
    by_cases hinside : n < text.length + 1
    · exact h n hinside hn
    · rw [List.take_of_length_le (by omega), ← List.take_length (l := text)]
      exact h _ (Nat.lt_succ_self _) hopen.length_le

instance (text : List Char) : Decidable (NeverCloses text) :=
  decidable_of_iff _ neverCloses_iff.symm

theorem NeverCloses.exists_eq {text : List Char} (h : NeverCloses text) :
    ∃ rest, text = '/' :: '*' :: rest := by
  obtain ⟨rest, rfl⟩ := h.1
  exact ⟨rest, rfl⟩

end Terminal

namespace NestingScan

open Terminal (NeverCloses)

section
variable {front rest : List Char}

/-- Only a mark with an end mark behind it is read as the start of a comment. -/
theorem exists_of_unterminated {text : List Char} (h : step text = .unterminated) :
    ∃ rest, text = '/' :: '*' :: rest ∧ ['*', '/'] <:+: rest := by
  unfold step at h
  split at h
  · cases h
  · rename_i lexeme back hnext
    have hcomment := Terminal.blockComment_of_next? hnext
    unfold Terminal.blockComment at hcomment
    split at hcomment
    · rename_i rest
      refine ⟨rest, rfl, ?_⟩
      by_contra hcloser
      rw [(Terminal.throughCommentEnd_eq_none_iff rest).2 hcloser] at hcomment
      cases hcomment
    · cases hcomment
  · cases h

theorem step_of_closer (h : NeverCloses ('/' :: '*' :: rest)) (hcloser : ['*', '/'] <:+: rest) :
    step ('/' :: '*' :: rest) = .unterminated := by
  have hcounted := (Terminal.neverCloses_iff.1 h).2
  obtain ⟨split, hsplit⟩ : ∃ split, Terminal.blockComment ('/' :: '*' :: rest) = some split := by
    rw [Terminal.blockComment, ← Option.isSome_iff_exists, Option.isSome_iff_ne_none, Ne,
      Terminal.prepend_eq_none_iff, Terminal.throughCommentEnd_eq_none_iff]
    exact not_not_intro hcloser
  unfold step
  rw [Terminal.next?_of_blockComment hsplit]
  dsimp only
  rw [hcounted]

/-- Without an end mark behind it, the mark that opens a comment is punctuation. -/
theorem steps_of_no_closer (hcloser : ¬['*', '/'] <:+: rest) :
    step ('/' :: '*' :: rest) = .token .punct ['/'] ('*' :: rest) ∧
      step ('*' :: rest) = .token .punct ['*'] rest := by
  have hcomment : Terminal.blockComment ('/' :: '*' :: rest) = none := by
    rw [Terminal.blockComment, Terminal.prepend_eq_none_iff,
      Terminal.throughCommentEnd_eq_none_iff]
    exact hcloser
  have hslash : Terminal.punct ('/' :: '*' :: rest) = some (['/'], '*' :: rest) := rfl
  have hstar : Terminal.punct ('*' :: rest) = some (['*'], rest) := by
    cases rest with
    | nil => rfl
    | cons c rest => simp [Terminal.punct, Terminal.punctPairs, Terminal.punctChars]
  exact ⟨step_of_next? (Terminal.next?_of_punct hslash rfl hcomment) (by rintro ⟨⟩),
    step_of_next? (Terminal.next?_of_punct hstar rfl rfl) (by rintro ⟨⟩)⟩

theorem reads_marks (hcloser : ¬['*', '/'] <:+: rest) : Reads ['/', '*'] rest := by
  obtain ⟨hslash, hstar⟩ := steps_of_no_closer hcloser
  have hbehind := @Reads.token .punct ['*'] [] rest hstar (.nil rest)
  exact @Reads.token .punct ['/'] ['*'] rest hslash hbehind

/-- Lexing does not stop at a comment that never ends if no end mark is left. -/
theorem fault_ne_unterminated {here place : Location} {text : List Char}
    (hcloser : ¬['*', '/'] <:+: text) :
    (scanFrom here text).fault ≠ some (.atPlace place .unterminatedComment) := by
  intro hfault
  obtain ⟨front, rest, rfl, -, hends⟩ := (cut_scanFrom here text).exists_reads hfault
  obtain ⟨c, -, -, -, hd⟩ | ⟨hstep, -⟩ := hends
  · cases congrArg Diagnostic.cause hd
  · obtain ⟨rest, rfl, hmarks⟩ := exists_of_unterminated hstep
    exact hcloser (hmarks.trans ⟨front ++ ['/', '*'], [], by simp⟩)

end
end NestingScan

namespace TokenTree

theorem NestingFault.cause_ne {tokens : List Token} {d : Diagnostic} (h : NestingFault tokens d) :
    d.cause ≠ .unterminatedComment := by
  cases h <;> exact nofun

theorem ofText_eq_unterminated {text : List Char} {place : Location} :
    ofText text = .error (.atPlace place .unterminatedComment) ↔
      (NestingScan.ofText text).fault = some (.atPlace place .unterminatedComment) := by
  rw [ofText_eq, NestingScan.outcome]
  cases hfault : (NestingScan.ofText text).fault with
  | some d => exact ⟨fun h => congrArg some (Except.error.inj h),
      fun h => congrArg Except.error (Option.some.inj h)⟩
  | none => exact iff_of_false (fun h => (ofTokens_eq_error h).cause_ne rfl) (by rintro ⟨⟩)

section
variable {front rest : List Char}

/-- Where a comment is opened and never closed, reading fails there just if an end mark follows
somewhere. If none follows, the marks that open the comment are read as punctuation, and what
stands behind them as code. -/
theorem ofText_eq_unterminated_iff (hreads : NestingScan.Reads front rest)
    (hopen : Terminal.NeverCloses rest) :
    (ofText (front ++ rest) =
        .error (.atPlace (Location.first.after front) .unterminatedComment) ↔
      ['*', '/'] <:+: rest.drop 2) ∧
    (¬['*', '/'] <:+: rest.drop 2 →
      NestingScan.Reads (front ++ ['/', '*']) (rest.drop 2) ∧
      ∀ trees, ofText (front ++ rest) = .ok trees →
        ⟨.punct, "/", Location.first.after front, Location.first.after (front ++ ['/'])⟩ ∈
            flatten trees ∧
          ⟨.punct, "*", Location.first.after (front ++ ['/']),
            Location.first.after (front ++ ['/', '*'])⟩ ∈ flatten trees) := by
  obtain ⟨rest, rfl⟩ := hopen.exists_eq
  obtain ⟨tokens, hscan⟩ := hreads.scanFrom_eq .first
  change NestingScan.ofText (front ++ '/' :: '*' :: rest) = _ at hscan
  rw [List.drop_succ_cons, List.drop_succ_cons, List.drop_zero, ofText_eq_unterminated, hscan]
  by_cases hcloser : ['*', '/'] <:+: rest
  · rw [NestingScan.scanFrom_unterminated (NestingScan.step_of_closer hopen hcloser)]
    exact ⟨iff_of_true rfl hcloser, absurd hcloser⟩
  · obtain ⟨hslash, hstar⟩ := NestingScan.steps_of_no_closer hcloser
    rw [NestingScan.scanFrom_token hslash, NestingScan.scanFrom_token hstar] at hscan ⊢
    refine ⟨iff_of_false (NestingScan.fault_ne_unterminated hcloser) hcloser,
      fun _ => ⟨hreads.append (NestingScan.reads_marks hcloser), fun trees htrees => ?_⟩⟩
    obtain ⟨-, -, hflatten⟩ := outcome_of_ofText htrees
    rw [hflatten, hscan, Location.after_append, Location.after_append]
    exact ⟨List.mem_filter.2 ⟨List.mem_append_right _ List.mem_cons_self, rfl⟩,
      List.mem_filter.2
        ⟨List.mem_append_right _ (List.mem_cons_of_mem _ List.mem_cons_self), rfl⟩⟩

/-- A comment in a comment that never ends. -/
theorem ofText_eq_unterminated_iff_nested :
    NestingScan.Reads ['a'] ['/', '*', '/', '*', '*', '/'] ∧
      Terminal.NeverCloses ['/', '*', '/', '*', '*', '/'] ∧
      ofText ['a', '/', '*', '/', '*', '*', '/'] =
        .error (.atPlace ⟨1, 1, 2⟩ .unterminatedComment) := by
  have hreads : NestingScan.Reads ['a'] ['/', '*', '/', '*', '*', '/'] :=
    @NestingScan.Reads.token .ident ['a'] [] _ (by decide) (.nil _)
  have hopen : Terminal.NeverCloses ['/', '*', '/', '*', '*', '/'] := by decide
  exact ⟨hreads, hopen, (ofText_eq_unterminated_iff hreads hopen).1.2 (by decide)⟩

/-- What a comment without any end mark behind it holds is read as code. -/
theorem open_comment_is_code :
    Terminal.NeverCloses ['/', '*', 'a'] ∧
      (ofText ['/', '*', 'a']).map flatten =
        .ok [⟨.punct, "/", ⟨0, 1, 1⟩, ⟨1, 1, 2⟩⟩, ⟨.punct, "*", ⟨1, 1, 2⟩, ⟨2, 1, 3⟩⟩,
          ⟨.ident, "a", ⟨2, 1, 3⟩, ⟨3, 1, 4⟩⟩] := by
  decide +kernel

end
end TokenTree
end LuaBindings
