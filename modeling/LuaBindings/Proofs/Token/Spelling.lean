import LuaBindings.Proofs.Token.Blanking
import LuaBindings.Proofs.Token.Placement
import LuaBindings.Proofs.Token.Respacing

/-!
# Spelling tokens with other blanks

A text spells some neighbouring tokens of another text if it has their lexemes in order,
with blanks wherever the other text has something between two of them. They are
written in it (`Spells.written`), so it lexes into the same tokens.
-/

set_option autoImplicit false

namespace LuaBindings

def Token.bare (t : Token) : TokenKind × String := (t.kind, t.text)

/-- The text has the lexemes in order and blanks before them. Only a token that starts at
the given offset, or where the token before it ends, may stand without blanks. -/
inductive Spells : Nat → List Token → List Char → Prop
  | nil (stop : Nat) : Spells stop [] []
  | cons {stop : Nat} {blanks new : List Char} {t : Token} {rest : List Token} :
    (∀ c ∈ blanks, Terminal.isSpace c = true) → (blanks = [] → t.start.offset = stop) →
    Spells t.stop.offset rest new → Spells stop (t :: rest) (blanks ++ (t.text.toList ++ new))

namespace NestingScan

/-- Before the next token that carries meaning, white space and comments are skipped. -/
theorem Cut.exists_next {here : Location} {text : List Char} {tokens : List Token}
    {fault : Option Diagnostic} (h : Cut here text tokens fault) {t : Token} {rest : List Token}
    (hnext : (tokens.filter fun t => !t.kind.isTrivia) = t :: rest) :
    ∃ skipped after tokens', text = skipped ++ (t.text.toList ++ after) ∧
      Reads skipped (t.text.toList ++ after) ∧
      t.start.offset = here.offset + skipped.length ∧ t.kind.isTrivia = false ∧
      Terminal.next? (t.text.toList ++ after) = some (t.kind, t.text.toList, after) ∧
      Cut t.start (t.text.toList ++ after) (t :: tokens') fault ∧
      Cut t.stop after tokens' fault ∧ (tokens'.filter fun t => !t.kind.isTrivia) = rest := by
  induction h with
  | stuck => cases hnext
  | unterminated => cases hnext
  | @token here kind lexeme after tokens fault hstep htail ih =>
    cases hkind : kind.isTrivia with
    | true =>
      rw [List.filter_cons_of_neg (by simp [hkind])] at hnext
      obtain ⟨skipped, after', tokens', rfl, hreads, hstart, hrest⟩ := ih hnext
      refine ⟨lexeme ++ skipped, after', tokens', (List.append_assoc ..).symm,
        .token hstep hreads, ?_, hrest⟩
      rw [hstart, Location.after_offset, List.length_append]
      omega
    | false =>
      rw [List.filter_cons_of_pos (by simp [hkind])] at hnext
      cases hnext
      have hcomment : kind ≠ .blockComment := by
        rintro rfl
        cases hkind
      rw [String.toList_ofList]
      exact ⟨[], after, tokens, rfl, .nil _, rfl, hkind, next?_of_step hstep hcomment,
        .token hstep htail, htail, rfl⟩

/-- Behind a token of a text its other tokens are read. -/
theorem reads_token {t : Token} {after : List Char} (hkind : t.kind.isTrivia = false)
    (hnext : Terminal.next? (t.text.toList ++ after) = some (t.kind, t.text.toList, after)) :
    Reads t.text.toList after := by
  have hstep := step_of_next? hnext fun heq => by
    rw [heq] at hkind
    cases hkind
  have htoken := @Reads.token t.kind t.text.toList [] after hstep (.nil after)
  rwa [List.append_nil] at htoken

/-- Lexing comes to every token that carries meaning. -/
theorem Cut.exists_start {here : Location} {text : List Char} {tokens : List Token}
    {fault : Option Diagnostic} (h : Cut here text tokens fault) {before rest : List Token}
    {t : Token} (htokens : (tokens.filter fun t => !t.kind.isTrivia) = before ++ t :: rest) :
    ∃ front after tokens', text = front ++ after ∧ Reads front after ∧
      Cut t.start after tokens' fault ∧
      (tokens'.filter fun t => !t.kind.isTrivia) = t :: rest := by
  induction before generalizing here text tokens with
  | nil =>
    obtain ⟨skipped, _, tokens', htext, hreads, _, hkind, _, hcut, _, hrest⟩ :=
      h.exists_next htokens
    refine ⟨skipped, _, _, htext, hreads, hcut, ?_⟩
    rw [List.filter_cons_of_pos (by simp [hkind]), hrest]
  | cons u before ih =>
    obtain ⟨skipped, _, _, rfl, hreads, _, hkind, hnext, _, hcut, hrest⟩ := h.exists_next htokens
    obtain ⟨front, after, tokens', rfl, hbehind, hcut, hrest⟩ := ih hcut hrest
    rw [← List.append_assoc u.text.toList] at hreads ⊢
    exact ⟨_, after, tokens', (List.append_assoc _ _ _).symm,
      hreads.append ((reads_token hkind hnext).append hbehind), hcut, hrest⟩

/-- Wherever it is lexed, the text has just tokens of these kinds and texts. -/
def LexesTo (text : List Char) (bares : List (TokenKind × String)) : Prop :=
  ∀ place, (scanFrom place text).fault = none ∧
    (scanFrom place text).significant.map Token.bare = bares

theorem outcome_of_lexesTo {text : List Char} {bares : List (TokenKind × String)}
    (h : LexesTo text bares) : (ofText text).outcome = .ok (ofText text).significant := by
  rw [outcome, ofText, (h .first).1]

theorem lexesTo_nil : LexesTo [] [] := by
  intro place
  have hend : step [] = .stuck := rfl
  rw [scanFrom_stuck hend]
  exact ⟨rfl, rfl⟩

theorem ne_of_isTrivia {kind trivia : TokenKind} (hkind : kind.isTrivia = false)
    (htrivia : trivia.isTrivia = true) : kind ≠ trivia := by
  rintro rfl
  rw [hkind] at htrivia
  cases htrivia

/-- The text consists of the lexemes of the tokens, each of which is taken from the front of
what is left, and of blanks. -/
inductive Written : List Char → List (TokenKind × String) → Prop
  | nil : Written [] []
  | blank {c : Char} {text : List Char} {bares : List (TokenKind × String)} :
    Terminal.isSpace c = true → Written text bares → Written (c :: text) bares
  | token {kind : TokenKind} {lexeme rest : List Char} {bares : List (TokenKind × String)} :
    kind.isTrivia = false → Terminal.next? (lexeme ++ rest) = some (kind, lexeme, rest) →
    Written rest bares → Written (lexeme ++ rest) ((kind, String.ofList lexeme) :: bares)

theorem Written.blanks {text blanks : List Char} {bares : List (TokenKind × String)}
    (h : Written text bares) (hblanks : ∀ c ∈ blanks, Terminal.isSpace c = true) :
    Written (blanks ++ text) bares := by
  induction blanks with
  | nil => exact h
  | cons c blanks ih =>
    exact .blank (hblanks c List.mem_cons_self) (ih fun d hd => hblanks d (List.mem_cons_of_mem c hd))

/-- One more token in front, behind blanks. -/
theorem Written.cons {text blanks : List Char} {t : Token} {bares : List (TokenKind × String)}
    (h : Written text bares) (hblanks : ∀ c ∈ blanks, Terminal.isSpace c = true)
    (hkind : t.kind.isTrivia = false)
    (hnext : Terminal.next? (t.text.toList ++ text) = some (t.kind, t.text.toList, text)) :
    Written (blanks ++ (t.text.toList ++ text)) (t.bare :: bares) := by
  have htoken := Written.token hkind hnext h
  rw [String.ofList_toList] at htoken
  exact htoken.blanks hblanks

/-- What is written is lexed. -/
theorem Written.lexesTo {text : List Char} {bares : List (TokenKind × String)}
    (h : Written text bares) : LexesTo text bares := by
  induction h with
  | nil => exact lexesTo_nil
  | @blank c text bares hc _ ih =>
    intro place
    have hspace : ∀ d ∈ [c], Terminal.isSpace d = true := by simpa using hc
    have hblank := extends_blanks hspace place text
    rw [← List.singleton_append, hblank.fault, hblank.significant]
    exact ih _
  | @token kind lexeme rest bares hkind hnext _ ih =>
    intro place
    have hstep := step_of_next? hnext fun heq => absurd heq (ne_of_isTrivia hkind rfl)
    obtain ⟨hfault, hsame⟩ := ih (place.after lexeme)
    rw [scanFrom_token hstep, significant, List.filter_cons_of_pos (by simp [hkind]),
      List.map_cons]
    exact ⟨hfault, congrArg _ hsame⟩

end NestingScan

namespace Spells

open NestingScan

theorem respaced {here : Location} {text new : List Char} {tokens toks : List Token}
    {fault : Option Diagnostic} (h : Spells here.offset toks new)
    (hcut : Cut here text tokens fault)
    (hfront : toks <+: tokens.filter fun t => !t.kind.isTrivia) : Terminal.Respaced text new := by
  generalize hstop : here.offset = stop at h
  induction h generalizing here text tokens with
  | nil => exact .stop text
  | @cons stop blanks new t rest hblanks htouch _ ih =>
    obtain ⟨more, hmore⟩ := hfront
    obtain ⟨skipped, after, tokens', rfl, _, hstart, _, hnext, _, hcut', hrest⟩ :=
      hcut.exists_next hmore.symm
    have hbehind := ih hcut' ⟨more, hrest.symm⟩ rfl
    have htoken := Terminal.Respaced.token hnext hbehind
    by_cases hnone : blanks = []
    · -- a token without blanks starts right here, so nothing is skipped before it
      have hskipped : skipped = [] := by
        have := htouch hnone
        exact List.length_eq_zero_iff.1 (by omega)
      rw [hnone, hskipped]
      exact htoken
    · exact htoken.blanks skipped hnone hblanks

/-- The tokens that a text spells are written in it. -/
theorem written {here : Location} {text new : List Char} {tokens toks : List Token}
    {fault : Option Diagnostic} (h : Spells here.offset toks new)
    (hcut : Cut here text tokens fault)
    (hfront : toks <+: tokens.filter fun t => !t.kind.isTrivia) :
    Written new (toks.map Token.bare) := by
  generalize hstop : here.offset = stop at h
  induction h generalizing here text tokens with
  | nil => exact .nil
  | @cons stop blanks new t rest hblanks htouch hspells ih =>
    obtain ⟨more, hmore⟩ := hfront
    obtain ⟨skipped, after, tokens', rfl, _, hstart, hkind, hnext, _, hcut', hrest⟩ :=
      hcut.exists_next hmore.symm
    have hfront' : rest <+: tokens'.filter fun t => !t.kind.isTrivia := ⟨more, hrest.symm⟩
    have hr := respaced hspells hcut' hfront'
    have hnext' := Terminal.next?_respaced hnext hr (ne_of_isTrivia hkind rfl).elim
      (ne_of_isTrivia hkind rfl).elim
    exact (ih hcut' hfront' rfl).cons hblanks hkind hnext'

/-- Lexing comes to the start of neighbouring tokens of a text. -/
theorem exists_cut {text : List Char} {t : Token} {run : List Token}
    (hpart : t :: run <:+: (ofText text).significant) :
    ∃ front text' tokens', text = front ++ text' ∧ Reads front text' ∧
      Cut t.start text' tokens' (ofText text).fault ∧
      t :: run <+: tokens'.filter fun t => !t.kind.isTrivia := by
  obtain ⟨before, after, htokens⟩ := hpart
  rw [List.append_assoc] at htokens
  obtain ⟨front, text', tokens', htext, hreads, hcut, hrest⟩ :=
    (cut_scanFrom .first text).exists_start htokens.symm
  exact ⟨front, text', tokens', htext, hreads, hcut, after, hrest.symm⟩

/-- A run of the tokens of a text, spelled from its own start on. -/
theorem written_ofText {text new : List Char} {stop : Nat} {run : List Token}
    (h : Spells stop run new) (hstart : ∀ t ∈ run.head?, t.start.offset = stop)
    (hpart : run <:+: (ofText text).significant) : Written new (run.map Token.bare) := by
  cases run with
  | nil =>
    cases h
    exact .nil
  | cons t run =>
    obtain ⟨_, text', tokens', _, _, hcut, hfront⟩ := exists_cut hpart
    rw [← hstart t rfl] at h
    exact h.written hcut hfront

end Spells

end LuaBindings
