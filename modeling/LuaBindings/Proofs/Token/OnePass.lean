import LuaBindings.Proofs.Token.Settled
import LuaBindings.TokenTree.Reading

/-!
# Blanking and lexing in one pass

Overwriting the nested comments of a text and lexing what comes of it finds the tokens, or
the failure, that lexing with nested comments in one pass finds.
-/

set_option autoImplicit false

namespace LuaBindings

namespace Comment

theorem blankFrom_eq (start : Nat) (text : List Char) : blankFrom start text =
    match firstNested? text start (Scan.ofText text).tokens with
    | some (t, none) => .error (.atPlace t.start .unterminatedComment)
    | some (t, some stop) => blankFrom stop (blankSpan t.start.offset stop text)
    | none =>
      match (Scan.ofText text).stray with
      | some (c, place) => .error (.atPlace place (.untokenizable (.strayCharacter c) place))
      | none => .ok text := by
  rw [blankFrom]
  split
  · simp_all
  · simp_all
  · cases hstray : (Scan.ofText text).stray with
    | none => simp_all
    | some found => simp_all

theorem blankSpan_append (front comment after : List Char) :
    blankSpan front.length (front.length + comment.length) (front ++ (comment ++ after)) =
      front ++ (comment.map blankChar ++ after) := by
  ext i : 1
  rw [blankSpan, List.getElem?_mapIdx]
  by_cases hfront : i < front.length
  · rw [List.getElem?_append_left hfront, List.getElem?_append_left hfront]
    simp [Nat.not_le.2 hfront]
  · have hle := Nat.le_of_not_lt hfront
    rw [List.getElem?_append_right hle, List.getElem?_append_right hle]
    by_cases hcomment : i - front.length < comment.length
    · have hin : front.length ≤ i ∧ i < front.length + comment.length := by omega
      rw [List.getElem?_append_left hcomment, List.getElem?_append_left (by simpa using hcomment),
        List.getElem?_map]
      simp [hin]
    · have hout : ¬(front.length ≤ i ∧ i < front.length + comment.length) := by omega
      have hbehind := Nat.le_of_not_lt hcomment
      rw [List.getElem?_append_right hbehind, List.getElem?_append_right (by simpa using hbehind),
        List.length_map]
      simp [hout]

theorem nestedStop?_append (front rest : List Char) : nestedStop? (front ++ rest) front.length =
    (Terminal.nestedComment rest).map fun split => front.length + split.1.length := by
  rw [nestedStop?, List.drop_left]

theorem firstNested?_cons {text : List Char} {start : Nat} {t : Token} {tokens : List Token}
    (hkind : t.kind = .blockComment) (hstart : start ≤ t.start.offset)
    (hstop : nestedStop? text t.start.offset ≠ some t.stop.offset) :
    firstNested? text start (t :: tokens) = some (t, nestedStop? text t.start.offset) := by
  rw [firstNested?, List.find?_cons_of_pos (by simp [hkind, hstart, hstop])]
  rfl

end Comment

namespace NestingScan

open Comment

section
variable {front rest comment after lexeme : List Char} {tokens : List Token} {start : Nat}

theorem Settled.scan_ofText {text : List Char} (h : Settled .first text [] tokens) :
    Scan.ofText text = ⟨tokens, none⟩ := by
  have hscan := h.scan_eq
  have hnext : Terminal.next? [] = none := rfl
  rw [Scan.scanFrom_none hnext, List.append_nil, List.append_nil] at hscan
  exact hscan

theorem Settled.ofText_eq {text : List Char} (h : Settled .first text [] tokens) :
    ofText text = ⟨tokens, none⟩ := by
  have hscan := h.nestingScan_eq
  have hstep : step [] = .stuck := rfl
  rw [scanFrom_stuck hstep, List.append_nil, List.append_nil] at hscan
  exact hscan

/-- Once a text is settled there is nothing left to overwrite. -/
theorem Settled.blankFrom_eq_ok {text : List Char} (h : Settled .first text [] tokens)
    (start : Nat) : blankFrom start text = .ok text := by
  have htext : text.drop Location.first.offset = text ++ [] := (List.append_nil text).symm
  have hnested := h.firstNested?_append htext start []
  rw [List.append_nil] at hnested
  rw [blankFrom_eq, h.scan_ofText, hnested]
  rfl

theorem Settled.blankFrom_stray {c : Char} (h : Settled .first front (c :: rest) tokens)
    (hnext : Terminal.next? (c :: rest) = none) : ∃ d,
      blankFrom start (front ++ c :: rest) = .error d ∧
        (ofText (front ++ c :: rest)).fault = some d := by
  have hscan := h.scan_eq
  have hstep : step (c :: rest) = .stuck := by
    unfold step
    rw [hnext]
  have htext : (front ++ c :: rest).drop Location.first.offset = front ++ c :: rest := rfl
  have hnested := h.firstNested?_append htext start []
  rw [Scan.scanFrom_none hnext, List.append_nil] at hscan
  rw [List.append_nil] at hnested
  rw [blankFrom_eq, Scan.ofText, hscan, hnested, ofText, h.nestingScan_eq, scanFrom_stuck hstep]
  exact ⟨_, rfl, rfl⟩

/-- The first nested comment behind a settled stretch is found. -/
theorem Settled.firstNested?_eq (h : Settled .first front rest tokens)
    (hstart : start ≤ front.length)
    (hnext : Terminal.next? rest = some (.blockComment, lexeme, after))
    (hnested : Terminal.nestedComment rest ≠ some (lexeme, after)) :
    firstNested? (front ++ rest) start (Scan.ofText (front ++ rest)).tokens =
      some (⟨.blockComment, String.ofList lexeme, Location.first.after front,
        (Location.first.after front).after lexeme⟩, nestedStop? (front ++ rest) front.length) := by
  have hoffset : (Location.first.after front).offset = front.length := by
    rw [Location.after_offset]
    exact Nat.zero_add _
  rw [Scan.ofText, h.scan_eq, h.firstNested?_append (by simp [Location.first]),
    Scan.scanFrom_some hnext, ← hoffset]
  refine firstNested?_cons rfl (by rwa [hoffset]) ?_
  dsimp only
  rw [Location.after_offset _ lexeme, hoffset, nestedStop?_append]
  intro hstop
  obtain ⟨⟨comment, after'⟩, hcomment, hlength⟩ := Option.map_eq_some_iff.1 hstop
  obtain ⟨hlexeme, _⟩ := Terminal.next?_sound hnext
  obtain ⟨htext, _⟩ := Terminal.nestedComment_sound _ _ _ hcomment
  rw [← hlexeme] at htext
  obtain ⟨rfl, rfl⟩ := List.append_inj htext (Nat.add_left_cancel hlength)
  exact hnested hcomment

theorem Settled.blankFrom_unterminated (h : Settled .first front rest tokens)
    (hstart : start ≤ front.length)
    (hnext : Terminal.next? rest = some (.blockComment, lexeme, after))
    (hnested : Terminal.nestedComment rest = none) : ∃ d,
      blankFrom start (front ++ rest) = .error d ∧ (ofText (front ++ rest)).fault = some d := by
  have hstep : step rest = .unterminated := by
    unfold step
    rw [hnext, Terminal.countedComment_eq, hnested]
  rw [Comment.blankFrom_eq, h.firstNested?_eq hstart hnext (by simp [hnested]), nestedStop?_append,
    hnested, ofText, h.nestingScan_eq, scanFrom_unterminated hstep]
  exact ⟨_, rfl, rfl⟩

theorem Settled.blankFrom_nested (h : Settled .first front (comment ++ after) tokens)
    (hstart : start ≤ front.length) {back : List Char}
    (hnext : Terminal.next? (comment ++ after) = some (.blockComment, lexeme, back))
    (hcomment : Terminal.nestedComment (comment ++ after) = some (comment, after))
    (hnested : (comment, after) ≠ (lexeme, back)) :
    blankFrom start (front ++ (comment ++ after)) =
      blankFrom (front.length + comment.length) (front ++ (comment.map blankChar ++ after)) := by
  rw [Comment.blankFrom_eq, h.firstNested?_eq hstart hnext (by simpa [hcomment] using hnested),
    nestedStop?_append, hcomment]
  dsimp only [Option.map_some]
  rw [Location.after_offset]
  dsimp only [Location.first]
  rw [Nat.zero_add, blankSpan_append]

/-- Overwriting either fails where lexing in one pass fails, or leaves a settled text that
lexes in one pass as the text does. -/
theorem Settled.blankFrom_cases (h : Settled .first front rest tokens)
    (hstart : start ≤ front.length) :
    (∃ d, blankFrom start (front ++ rest) = .error d ∧ (ofText (front ++ rest)).fault = some d) ∨
    (∃ blanked tokens', blankFrom start (front ++ rest) = .ok blanked ∧
      Settled .first blanked [] tokens' ∧
      Extends [] (ofText (front ++ rest)) (ofText blanked)) := by
  -- the induction is on what is left behind the settled stretch
  induction hn : rest.length using Nat.strongRecOn generalizing start front rest tokens with
  | ind n ih =>
  obtain ⟨middle, rest, more, rfl, hmore, hparted⟩ :=
    exists_settled (Location.first.after front) rest
  have hsettled := h.append hmore
  have hstart' : start ≤ (front ++ middle).length := by
    rw [List.length_append]
    omega
  rw [← List.append_assoc]
  cases hnext : Terminal.next? rest with
  | none =>
    cases rest with
    | nil =>
      right
      rw [List.append_nil]
      exact ⟨_, _, hsettled.blankFrom_eq_ok start, hsettled, .refl _⟩
    | cons c rest => exact .inl (hsettled.blankFrom_stray hnext)
  | some taken =>
    obtain ⟨kind, lexeme, back⟩ := taken
    obtain ⟨rfl, hnested⟩ := hparted _ _ _ hnext
    cases hcomment : Terminal.nestedComment rest with
    | none => exact .inl (hsettled.blankFrom_unterminated hstart' hnext hcomment)
    | some split =>
      obtain ⟨comment, after⟩ := split
      rw [hcomment] at hnested
      obtain ⟨rfl, hne⟩ := Terminal.nestedComment_sound _ _ _ hcomment
      have hpair : (comment, after) ≠ (lexeme, back) := fun h => hnested (congrArg some h)
      have hagree := hsettled.extends_blank hnext hcomment hpair
      rw [hsettled.blankFrom_nested hstart' hnext hcomment hpair]
      obtain ⟨lead, back', hrun⟩ :
          ∃ lead back', Terminal.run Terminal.isSpace after = (lead, back') :=
        ⟨_, _, rfl⟩
      have hjoin := Terminal.run_append Terminal.isSpace after
      rw [hrun] at hjoin
      subst hjoin
      obtain ⟨tokens', hblank⟩ := hsettled.blank hcomment hrun
      have hpos := List.length_pos_iff.2 hne
      have hless : back'.length < n := by
        simp only [List.length_append] at hn
        omega
      have hbound : (front ++ middle).length + comment.length ≤
          (front ++ middle ++ (comment.map blankChar ++ lead)).length := by
        simp only [List.length_append, List.length_map]
        omega
      have hcases := ih _ hless hblank hbound rfl
      rw [List.append_assoc (front ++ middle), List.append_assoc (comment.map blankChar)] at hcases
      rcases hcases with ⟨d, herror, hfault⟩ | ⟨blanked, tokens'', hok, hfinal, hsame⟩
      · exact .inl ⟨d, herror, hagree.fault.trans hfault⟩
      · exact .inr ⟨blanked, tokens'', hok, hfinal, hagree.trans hsame⟩

end

/-! ### What is overwritten -/

theorem Cut.length_blanked {here : Location} {text : List Char} {tokens : List Token}
    {fault : Option Diagnostic} (h : Cut here text tokens fault) (hfault : fault = none) :
    (tokens.flatMap Token.blanked).length = text.length := by
  induction h with
  | @stuck here text _ =>
    cases text with
    | nil => rfl
    | cons c text => cases hfault
  | unterminated => cases hfault
  | token _ _ ih =>
    rw [List.flatMap_cons, List.length_append, List.length_append, ih hfault,
      Token.length_blanked, String.toList_ofList]

theorem Cut.getElem?_blanked_eq_iff {here : Location} {text : List Char} {tokens : List Token}
    {fault : Option Diagnostic} (h : Cut here text tokens fault) (hfault : fault = none)
    {mark : Char} (hmark : mark = '\r' ∨ mark = '\n') (i : Nat) :
    (tokens.flatMap Token.blanked)[i]? = some mark ↔ text[i]? = some mark := by
  induction h generalizing i with
  | @stuck here text _ =>
    cases text with
    | nil => rfl
    | cons c text => cases hfault
  | unterminated => cases hfault
  | @token here kind lexeme rest tokens fault _ _ ih =>
    have hlength := Token.length_blanked
      ⟨kind, String.ofList lexeme, here, here.after lexeme⟩
    rw [String.toList_ofList] at hlength
    rw [List.flatMap_cons]
    by_cases hi : i < lexeme.length
    · rw [List.getElem?_append_left (by omega), List.getElem?_append_left hi,
        Token.getElem?_blanked_eq_iff _ hmark, String.toList_ofList]
    · rw [List.getElem?_append_right (by omega), List.getElem?_append_right (by omega), hlength,
        ih hfault]

/-- What is overwritten lies in a nested comment. -/
theorem Cut.exists_nested {here : Location} {text : List Char} {tokens : List Token}
    {fault : Option Diagnostic} (h : Cut here text tokens fault) (hfault : fault = none) {i : Nat}
    (hi : (tokens.flatMap Token.blanked)[i]? ≠ text[i]?) :
    ∃ t ∈ tokens, t.isNested = true ∧ t.start.offset ≤ here.offset + i ∧
      here.offset + i < t.stop.offset := by
  induction h generalizing i with
  | @stuck here text _ =>
    cases text with
    | nil => exact absurd rfl hi
    | cons c text => cases hfault
  | unterminated => cases hfault
  | @token here kind lexeme rest tokens fault _ _ ih =>
    have hlength := Token.length_blanked
      ⟨kind, String.ofList lexeme, here, here.after lexeme⟩
    rw [String.toList_ofList] at hlength
    rw [List.flatMap_cons] at hi
    by_cases hlt : i < lexeme.length
    · refine ⟨_, List.mem_cons_self, ?_, Nat.le_add_right _ _, ?_⟩
      · rw [List.getElem?_append_left (by omega), List.getElem?_append_left hlt] at hi
        by_contra hnested
        rw [Token.blanked_eq_self (by simpa using hnested), String.toList_ofList] at hi
        exact hi rfl
      · dsimp only
        rw [Location.after_offset]
        omega
    · rw [List.getElem?_append_right (by omega), List.getElem?_append_right (by omega),
        hlength] at hi
      obtain ⟨t, ht, hnested, hstart, hstop⟩ := ih hfault hi
      rw [Location.after_offset] at hstart hstop
      exact ⟨t, List.mem_cons_of_mem _ ht, hnested, by omega, by omega⟩

end NestingScan

/-- The tokens that carry meaning, or a failure at the first character that starts none. -/
def Scan.outcome (scan : Scan) : Except Diagnostic (List Token) :=
  match scan.stray with
  | some (c, place) => .error (.atPlace place (.untokenizable (.strayCharacter c) place))
  | none => .ok scan.significant

namespace Comment

/-- Lexing in two phases: nested comments are overwritten, and what comes of it is lexed. -/
def lexed (text : List Char) : Except Diagnostic (List Token) :=
  match blankNested text with
  | .error d => .error d
  | .ok blanked => (Scan.ofText blanked).outcome

/-- Overwriting either fails where lexing in one pass fails, or leaves a settled text that
lexes in one pass as the text does. -/
theorem blankNested_cases (text : List Char) :
    (∃ d, blankNested text = .error d ∧ (NestingScan.ofText text).fault = some d) ∨
    (∃ blanked tokens, blankNested text = .ok blanked ∧
      NestingScan.Settled .first blanked [] tokens ∧
      NestingScan.Extends [] (NestingScan.ofText text) (NestingScan.ofText blanked)) :=
  (NestingScan.Settled.nil .first text).blankFrom_cases (Nat.le_refl 0)

end Comment

/-- The trees of a text are those of the tokens that lexing in one pass finds. -/
theorem TokenTree.ofText_eq (text : List Char) : ofText text =
    match (NestingScan.ofText text).outcome with
    | .error d => .error d
    | .ok tokens => ofTokens tokens := by
  unfold ofText NestingScan.outcome
  rcases Comment.blankNested_cases text with
    ⟨d, hblank, hfault⟩ | ⟨blanked, tokens, hblank, h, hsame⟩
  · rw [hblank, hfault]
  · rw [hblank, hsame.fault, hsame.significant, h.ofText_eq]
    dsimp only
    rw [h.scan_ofText]
    rfl

theorem Comment.lexed_eq (text : List Char) : lexed text = (NestingScan.ofText text).outcome := by
  unfold lexed NestingScan.outcome
  rcases blankNested_cases text with ⟨d, hblank, hfault⟩ | ⟨blanked, tokens, hblank, h, hsame⟩
  · rw [hblank, hfault]
  · rw [hblank, hsame.fault, hsame.significant, h.ofText_eq]
    dsimp only
    rw [h.scan_ofText]
    rfl

/-- Lexing in two phases is lexing in one pass with nested comments. What the first phase
leaves lexes throughout. It has the length of the text and its line ends, differs from the
text inside of nested comments only, and is left as it is by another first phase. -/
theorem Comment.lexed_eq_outcome (text : List Char) :
    lexed text = (NestingScan.ofText text).outcome ∧
    ∀ blanked, blankNested text = .ok blanked →
      (Scan.ofText blanked).stray = none ∧
      blanked.length = text.length ∧
      (∀ (i : Nat) (mark : Char), mark = '\r' ∨ mark = '\n' →
        (blanked[i]? = some mark ↔ text[i]? = some mark)) ∧
      (∀ i : Nat, blanked[i]? ≠ text[i]? → ∃ t ∈ (NestingScan.ofText text).tokens,
        t.isNested = true ∧ t.start.offset ≤ i ∧ i < t.stop.offset) ∧
      blankNested blanked = .ok blanked := by
  refine ⟨lexed_eq text, fun blanked hok => ?_⟩
  rcases blankNested_cases text with ⟨d, hblank, _⟩ | ⟨blanked', tokens, hblank, h, hsame⟩
  · rw [hblank] at hok
    cases hok
  · rw [hblank] at hok
    cases hok
    have hfault : (NestingScan.ofText text).fault = none := by
      rw [hsame.fault, h.ofText_eq]
    have hcut := NestingScan.cut_scanFrom .first text
    have hblanked : (NestingScan.ofText text).tokens.flatMap Token.blanked = blanked := by
      refine hsame.blanked.trans ?_
      rw [h.ofText_eq]
      exact h.blanked_eq
    refine ⟨by rw [h.scan_ofText], ?_, fun i mark hmark => ?_, fun i hi => ?_,
      h.blankFrom_eq_ok 0⟩
    · rw [← hblanked]
      exact hcut.length_blanked hfault
    · rw [← hblanked]
      exact hcut.getElem?_blanked_eq_iff hfault hmark i
    · rw [← hblanked] at hi
      obtain ⟨t, ht, hnested, hstart, hstop⟩ := hcut.exists_nested hfault hi
      rw [Location.first, Nat.zero_add] at hstart hstop
      exact ⟨t, ht, hnested, hstart, hstop⟩

/-- A comment in a comment, with a line feed and a quote in it, is overwritten. -/
theorem Comment.lexed_eq_outcome_nested :
    blankNested ['a', '/', '*', '/', '*', '\n', '*', '/', '"', '*', '/', 'b'] =
        .ok ['a', ' ', ' ', ' ', ' ', '\n', ' ', ' ', ' ', ' ', ' ', 'b'] ∧
      blankNested ['a', ' ', ' ', ' ', ' ', '\n', ' ', ' ', ' ', ' ', ' ', 'b'] =
        .ok ['a', ' ', ' ', ' ', ' ', '\n', ' ', ' ', ' ', ' ', ' ', 'b'] ∧
      ∃ t ∈ (NestingScan.ofText
          ['a', '/', '*', '/', '*', '\n', '*', '/', '"', '*', '/', 'b']).tokens,
        t.isNested = true ∧ t.start.offset ≤ 8 ∧ 8 < t.stop.offset := by
  have hblank : blankNested ['a', '/', '*', '/', '*', '\n', '*', '/', '"', '*', '/', 'b'] =
      .ok ['a', ' ', ' ', ' ', ' ', '\n', ' ', ' ', ' ', ' ', ' ', 'b'] := by
    decide +kernel
  obtain ⟨_, _, _, hdiffers, hagain⟩ := (lexed_eq_outcome _).2 _ hblank
  exact ⟨hblank, hagain, hdiffers 8 (by decide)⟩

end LuaBindings
