import LuaBindings.Proofs.Token.Lexeme
import LuaBindings.Proofs.Token.NestingScan

/-!
# Where tokens stand

Every token of a text stands where its text is, its lines and columns are what counting
line feeds gives, and between tokens there is nothing but white space and comments.
-/

set_option autoImplicit false

namespace LuaBindings

namespace Location

/-- The place of an offset in a text: one line more than there are line feeds before it,
and one column more than there are characters since the last of them. -/
def counted (text : List Char) (offset : Nat) : Location :=
  let before := text.take offset
  ⟨offset, before.count '\n' + 1, (before.reverse.takeWhile (· != '\n')).length + 1⟩

theorem after_first (text : List Char) : first.after text =
    ⟨text.length, text.count '\n' + 1, (text.reverse.takeWhile (· != '\n')).length + 1⟩ := by
  induction text using List.reverseRecOn with
  | nil => rfl
  | append_singleton text c ih =>
    rw [after_append, ih]
    by_cases hc : c = '\n'
    · simp [after, next, hc]
    · simp [after, next, hc]

theorem after_first_append (front rest : List Char) :
    first.after front = counted (front ++ rest) front.length := by
  rw [after_first, counted, List.take_left]

end Location

/-- A token stands in a text at its offsets, on its lines and in its columns. -/
structure Token.StandsIn (text : List Char) (t : Token) : Prop where
  start_lt : t.start.offset < t.stop.offset
  stop_le : t.stop.offset ≤ text.length
  text_eq : t.text.toList = (text.drop t.start.offset).take (t.stop.offset - t.start.offset)
  start_eq : t.start = Location.counted text t.start.offset
  stop_eq : t.stop = Location.counted text t.stop.offset

namespace Token

theorem StandsIn.length_eq {text : List Char} {t : Token} (h : t.StandsIn text) :
    t.stop.offset = t.start.offset + t.text.toList.length := by
  have hstart := h.start_lt
  have hstop := h.stop_le
  rw [h.text_eq, List.length_take, List.length_drop]
  omega

/-- The characters of the token are those of the text. -/
theorem StandsIn.getElem?_eq {text : List Char} {t : Token} (h : t.StandsIn text) {i : Nat}
    (hi : i < t.text.toList.length) : text[t.start.offset + i]? = t.text.toList[i]? := by
  have hlength := h.length_eq
  rw [h.text_eq, List.getElem?_take_of_lt (by omega), List.getElem?_drop]

end Token

namespace NestingScan

/-- White space and comments lead from one text to an end of it. -/
inductive Gap : List Char → List Char → Prop
  | none (text : List Char) : Gap text text
  | trivia {kind : TokenKind} {lexeme rest after : List Char} :
    step (lexeme ++ rest) = .token kind lexeme rest → kind.isTrivia = true → Gap rest after →
    Gap (lexeme ++ rest) after

theorem Gap.trans {a b c : List Char} (h : Gap a b) (h' : Gap b c) : Gap a c := by
  induction h with
  | none => exact h'
  | trivia hstep hkind _ ih => exact .trivia hstep hkind (ih h')

/-- From an offset on, a text consists of the given tokens, with white space and comments
around them. -/
inductive Laid (text : List Char) : Nat → List Token → Prop
  | nil {offset : Nat} : Gap (text.drop offset) [] → Laid text offset []
  | cons {offset : Nat} {t : Token} {tokens : List Token} : offset ≤ t.start.offset →
    Gap (text.drop offset) (text.drop t.start.offset) → t.StandsIn text →
    Laid text t.stop.offset tokens → Laid text offset (t :: tokens)

theorem Laid.widen {text : List Char} {offset offset' : Nat} {tokens : List Token}
    (h : Laid text offset tokens) (hle : offset' ≤ offset)
    (hgap : Gap (text.drop offset') (text.drop offset)) : Laid text offset' tokens := by
  cases h with
  | nil hend => exact .nil (hgap.trans hend)
  | cons hstart hbefore hstands hrest =>
    exact .cons (Nat.le_trans hle hstart) (hgap.trans hbefore) hstands hrest

theorem standsIn_of_step {kind : TokenKind} {front lexeme rest : List Char}
    (h : step (lexeme ++ rest) = .token kind lexeme rest) :
    Token.StandsIn (front ++ (lexeme ++ rest))
      ⟨kind, String.ofList lexeme, Location.first.after front,
        Location.first.after (front ++ lexeme)⟩ where
  start_lt := by
    have := List.length_pos_iff.2 (step_sound h).2
    simp only [Location.after_first, List.length_append]
    omega
  stop_le := by
    simp only [Location.after_first, List.length_append]
    omega
  text_eq := by simp [Location.after_first]
  start_eq := by
    rw [Location.after_first_append front (lexeme ++ rest)]
    rfl
  stop_eq := by
    rw [← List.append_assoc, Location.after_first_append (front ++ lexeme) rest]
    rfl

/-- What a text is cut into without a failure is laid out in it. -/
theorem Cut.laid {here : Location} {text : List Char} {tokens : List Token}
    {fault : Option Diagnostic} (h : Cut here text tokens fault) (hfault : fault = none)
    (front : List Char) (hhere : here = Location.first.after front) :
    Laid (front ++ text) front.length (tokens.filter fun t => !t.kind.isTrivia) := by
  induction h generalizing front with
  | @stuck here text h =>
    cases text with
    | nil => exact .nil (by simpa using Gap.none [])
    | cons c text => cases hfault
  | unterminated h => cases hfault
  | @token here kind lexeme rest tokens fault hstep _ ih =>
    have hstop : here.after lexeme = Location.first.after (front ++ lexeme) := by
      rw [hhere, Location.after_append]
    have htail := ih hfault _ hstop
    have hoffset : ∀ s, (Location.first.after s).offset = s.length := fun s => by
      rw [Location.after_first]
    have hafter : (front ++ (lexeme ++ rest)).drop (front ++ lexeme).length = rest := by
      rw [← List.append_assoc, List.drop_left]
    rw [List.append_assoc] at htail
    cases hkind : kind.isTrivia with
    | true =>
      rw [List.filter_cons_of_neg (by simp [hkind])]
      refine htail.widen (by simp) ?_
      rw [List.drop_left, hafter]
      exact .trivia hstep hkind (.none rest)
    | false =>
      rw [List.filter_cons_of_pos (by simp [hkind]), hstop, hhere]
      refine .cons (Nat.le_of_eq (hoffset front).symm) ?_ (standsIn_of_step hstep) ?_
      · rw [hoffset]
        exact .none _
      · rw [hoffset]
        exact htail

/-- The tokens of a text that lexes are laid out in it. -/
theorem laid_ofText {text : List Char} (h : (ofText text).fault = none) :
    Laid text 0 (ofText text).significant :=
  (cut_scanFrom .first text).laid h [] rfl

/-! ### Order -/

theorem Laid.standsIn {text : List Char} {offset : Nat} {tokens : List Token}
    (h : Laid text offset tokens) : ∀ t ∈ tokens, t.StandsIn text := by
  induction h with
  | nil => simp
  | cons _ _ hstands _ ih => exact List.forall_mem_cons.2 ⟨hstands, ih⟩

theorem Laid.offset_le {text : List Char} {offset : Nat} {tokens : List Token}
    (h : Laid text offset tokens) : ∀ t ∈ tokens, offset ≤ t.start.offset := by
  induction h with
  | nil => simp
  | cons hle _ hstands _ ih =>
    refine List.forall_mem_cons.2 ⟨hle, fun t ht => ?_⟩
    have := ih t ht
    have := hstands.start_lt
    omega

/-- Tokens do not overlap. -/
theorem Laid.pairwise {text : List Char} {offset : Nat} {tokens : List Token}
    (h : Laid text offset tokens) :
    tokens.Pairwise fun a b => a.stop.offset ≤ b.start.offset := by
  induction h with
  | nil => exact .nil
  | cons _ _ _ hrest ih => exact .cons hrest.offset_le ih

/-! ### Delimiters -/

theorem next?_of_step {text lexeme rest : List Char} {kind : TokenKind}
    (h : step text = .token kind lexeme rest) (hkind : kind ≠ .blockComment) :
    Terminal.next? text = some (kind, lexeme, rest) := by
  unfold step at h
  split at h
  · cases h
  · split at h
    · cases h
    · cases h
      exact absurd rfl hkind
  · rename_i hnext
    cases h
    exact hnext

theorem closer_text {text lexeme rest : List Char} {d : Delimiter}
    (h : step text = .token (.closer d) lexeme rest) : String.ofList lexeme = d.closeText := by
  obtain ⟨f, hmem, hsplit⟩ := Terminal.exists_terminal (next?_of_step h nofun)
  have hsingle : ∃ mark, f = Terminal.single mark ∧ String.ofList [mark] = d.closeText := by
    simp only [Terminal.terminals, List.mem_cons, List.not_mem_nil, Prod.mk.injEq, reduceCtorEq,
      false_and, or_false, false_or, TokenKind.closer.injEq] at hmem
    rcases hmem with ⟨rfl, rfl⟩ | ⟨rfl, rfl⟩ | ⟨rfl, rfl⟩
    · exact ⟨_, rfl, rfl⟩
    · exact ⟨_, rfl, rfl⟩
    · exact ⟨_, rfl, rfl⟩
  obtain ⟨mark, rfl, hmark⟩ := hsingle
  cases text with
  | nil => cases hsplit
  | cons c text =>
    rw [Terminal.single] at hsplit
    split at hsplit
    · cases hsplit
      exact hmark
    · cases hsplit

/-- Closing delimiters are spelled as such. -/
theorem Cut.closer_text {here : Location} {text : List Char} {tokens : List Token}
    {fault : Option Diagnostic} (h : Cut here text tokens fault) :
    ∀ t ∈ tokens, ∀ d, t.kind = .closer d → t.text = d.closeText := by
  induction h with
  | stuck => simp
  | unterminated => simp
  | token hstep _ ih =>
    refine List.forall_mem_cons.2 ⟨fun d hkind => ?_, ih⟩
    cases hkind
    exact NestingScan.closer_text hstep

end NestingScan
end LuaBindings
