import LuaBindings.Proofs.Token.Spelling

/-!
# Tokens behind chosen blanks

Where the tokens of a written text stand is settled by the blanks that are put before each of
them: the text is lexed into the tokens at just these places (`Written.scanFrom_spaced`).
-/

set_option autoImplicit false

namespace LuaBindings

abbrev Spacing := List (List Char × Token)

namespace Spacing

def text : Spacing → List Char
  | [] => []
  | (blanks, t) :: rest => blanks ++ (t.text.toList ++ text rest)

def placed (here : Location) : Spacing → List Token
  | [] => []
  | (blanks, t) :: rest =>
    let start := here.after blanks
    let stop := start.after t.text.toList
    ⟨t.kind, t.text, start, stop⟩ :: placed stop rest

theorem text_append (s s' : Spacing) : text (s ++ s') = text s ++ text s' := by
  induction s with
  | nil => rfl
  | cons entry s ih => rw [List.cons_append, text, text, ih]; simp only [List.append_assoc]

theorem placed_append (here : Location) (s s' : Spacing) :
    placed here (s ++ s') = placed here s ++ placed (here.after (text s)) s' := by
  induction s generalizing here with
  | nil => rfl
  | cons entry s ih =>
    rw [List.cons_append, placed, placed, ih, text, Location.after_append, Location.after_append,
      List.cons_append]

end Spacing

/-- A token that begins with a character that is no white space. -/
def Token.Solid (t : Token) : Prop :=
  ∃ c rest, t.text.toList = c :: rest ∧ Terminal.isSpace c = false

theorem Terminal.kind_of_blank {c : Char} {text : List Char} {kind : TokenKind}
    {split : List Char × List Char} (hc : isSpace c = true)
    (h : next? (c :: text) = some (kind, split)) : kind = .space := by
  rw [next?_blank hc] at h
  exact (congrArg Prod.fst (Option.some.inj h)).symm

namespace NestingScan

/-- The tokens of a text that carry meaning do not begin with white space. -/
theorem Cut.solid {here : Location} {text : List Char} {tokens : List Token}
    {fault : Option Diagnostic} (h : Cut here text tokens fault) :
    ∀ t ∈ tokens.filter fun t => !t.kind.isTrivia, t.Solid := by
  induction h with
  | stuck => exact List.forall_mem_nil _
  | unterminated => exact List.forall_mem_nil _
  | @token here kind lexeme rest tokens fault hstep _ ih =>
    cases hkind : kind.isTrivia with
    | true =>
      rw [List.filter_cons_of_neg (by simp [hkind])]
      exact ih
    | false =>
      rw [List.filter_cons_of_pos (by simp [hkind])]
      refine List.forall_mem_cons.2 ⟨?_, ih⟩
      have hnext := next?_of_step hstep (ne_of_isTrivia hkind rfl)
      cases lexeme with
      | nil => exact absurd rfl (step_sound hstep).2
      | cons c lexeme =>
        refine ⟨c, lexeme, String.toList_ofList, Bool.eq_false_iff.2 fun hc => ?_⟩
        obtain rfl := Terminal.kind_of_blank hc hnext
        cases hkind

namespace Written

variable {text : List Char} {bares : List (TokenKind × String)}

theorem of_blank {c : Char} (hc : Terminal.isSpace c = true) (h : Written (c :: text) bares) :
    Written text bares := by
  generalize htext : c :: text = whole at h
  cases h with
  | nil => cases htext
  | blank _ hrest =>
    cases htext
    exact hrest
  | token hkind hnext _ =>
    rw [← htext] at hnext
    obtain rfl := Terminal.kind_of_blank hc hnext
    cases hkind

theorem of_blanks {blanks : List Char} (hblanks : ∀ c ∈ blanks, Terminal.isSpace c = true)
    (h : Written (blanks ++ text) bares) : Written text bares := by
  induction blanks with
  | nil => exact h
  | cons c blanks ih =>
    obtain ⟨hc, hblanks⟩ := List.forall_mem_cons.1 hblanks
    exact ih hblanks (of_blank hc h)

/-- What is written with a token in front was written by taking this token. -/
theorem of_token {t : Token} (hsolid : t.Solid)
    (h : Written (t.text.toList ++ text) (t.bare :: bares)) :
    t.kind.isTrivia = false ∧
      Terminal.next? (t.text.toList ++ text) = some (t.kind, t.text.toList, text) ∧
      Written text bares := by
  obtain ⟨first, more, hfirst, hc⟩ := hsolid
  generalize hwhole : t.text.toList ++ text = whole at h ⊢
  generalize hall : t.bare :: bares = all at h
  cases h with
  | nil => cases hall
  | blank hspace _ =>
    rw [hfirst, List.cons_append, List.cons.injEq] at hwhole
    rw [← hwhole.1, hc] at hspace
    cases hspace
  | @token kind lexeme rest others hkind hnext hrest =>
    rw [List.cons.injEq, Token.bare, Prod.mk.injEq] at hall
    obtain ⟨⟨rfl, htext⟩, rfl⟩ := hall
    rw [htext, String.toList_ofList] at hwhole ⊢
    obtain rfl := List.append_cancel_left hwhole
    exact ⟨hkind, hnext, hrest⟩

/-- What is written with chosen blanks is lexed into the tokens where they then stand. -/
theorem scanFrom_spaced {s : Spacing}
    (hblanks : ∀ entry ∈ s, ∀ c ∈ entry.1, Terminal.isSpace c = true)
    (hsolid : ∀ entry ∈ s, entry.2.Solid)
    (h : Written (Spacing.text s) (s.map fun entry => entry.2.bare)) (place : Location) :
    (scanFrom place (Spacing.text s)).fault = none ∧
      (scanFrom place (Spacing.text s)).significant = Spacing.placed place s := by
  induction s generalizing place with
  | nil =>
    have hend : step [] = .stuck := rfl
    rw [Spacing.text, scanFrom_stuck hend]
    exact ⟨rfl, rfl⟩
  | cons entry s ih =>
    obtain ⟨blanks, t⟩ := entry
    obtain ⟨hspace, hblanks⟩ := List.forall_mem_cons.1 hblanks
    obtain ⟨ht, hsolid⟩ := List.forall_mem_cons.1 hsolid
    rw [Spacing.text] at h ⊢
    obtain ⟨hkind, hnext, hrest⟩ := of_token ht (of_blanks hspace h)
    have hstep := step_of_next? hnext fun heq => absurd heq (ne_of_isTrivia hkind rfl)
    obtain ⟨hfault, hplaced⟩ := ih hblanks hsolid hrest ((place.after blanks).after t.text.toList)
    have hskip := extends_blanks hspace place (t.text.toList ++ Spacing.text s)
    rw [hskip.fault, hskip.significant, scanFrom_token hstep, significant,
      List.filter_cons_of_pos (by simp [hkind]), String.ofList_toList, Spacing.placed]
    exact ⟨hfault, congrArg _ hplaced⟩

end Written

end NestingScan
end LuaBindings
