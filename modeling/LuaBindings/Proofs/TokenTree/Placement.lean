import LuaBindings.Proofs.Token.OnePass
import LuaBindings.Proofs.Token.Placement
import LuaBindings.Proofs.TokenTree.Nesting

/-!
# Where the trees of a text stand

The trees of a text consist of the tokens that lexing with nested comments in one pass
finds, and these stand in the text itself, not in the one with its comments overwritten.
-/

set_option autoImplicit false

namespace LuaBindings.TokenTree

theorem outcome_of_ofText {text : List Char} {trees : List TokenTree}
    (h : ofText text = .ok trees) :
    (NestingScan.ofText text).fault = none ∧ Formed trees ∧
      flatten trees = (NestingScan.ofText text).significant := by
  rw [ofText_eq, NestingScan.outcome] at h
  cases hfault : (NestingScan.ofText text).fault with
  | some d =>
    rw [hfault] at h
    cases h
  | none =>
    rw [hfault] at h
    exact ⟨rfl, ofTokens_eq_ok_iff.1 h⟩

theorem ofText_of_ofSource {source : String} {trees : List TokenTree}
    (h : ofSource source = .ok trees) : ofText source.toList = .ok trees := by
  rw [ofSource] at h
  cases htext : ofText source.toList with
  | error d =>
    rw [htext] at h
    cases h
  | ok trees' =>
    rw [htext] at h
    cases h
    rfl

theorem exists_ofText_of_ofSource {source : String} {f : Failure}
    (h : ofSource source = .error f) : ∃ d, f = .single d ∧ ofText source.toList = .error d := by
  rw [ofSource] at h
  cases htext : ofText source.toList with
  | error d =>
    rw [htext] at h
    cases h
    exact ⟨d, rfl, rfl⟩
  | ok trees =>
    rw [htext] at h
    cases h

/-- The trees of a source consist of its tokens. -/
theorem lexed_of_ofSource {source : String} {trees : List TokenTree}
    (h : ofSource source = .ok trees) : Comment.lexed source.toList = .ok (flatten trees) := by
  obtain ⟨hfault, -, hflatten⟩ := outcome_of_ofText (ofText_of_ofSource h)
  rw [Comment.lexed_eq, NestingScan.outcome, hfault, hflatten]

theorem ofText_of_lexed {text : List Char} {tokens : List Token}
    (h : Comment.lexed text = .ok tokens) : ofText text = ofTokens tokens := by
  rw [Comment.lexed_eq] at h
  rw [ofText_eq, h]

/-- The tokens of the trees are laid out in the text. -/
theorem laid_flatten {text : List Char} {trees : List TokenTree} (h : ofText text = .ok trees) :
    NestingScan.Laid text 0 (flatten trees) := by
  obtain ⟨hfault, _, hflatten⟩ := outcome_of_ofText h
  rw [hflatten]
  exact NestingScan.laid_ofText hfault

/-- A text that lexes has trees exactly when its delimiters are well nested. The trees
consist of its tokens in order, which stand in the text without overlapping, with nothing
but white space and comments around them. Otherwise the failure stands at the first closer
that does not fit, or at the last token where a group is left open. -/
theorem ofText_of_lexes {text : List Char} {tokens : List Token}
    (h : Comment.lexed text = .ok tokens) :
    ((∃ trees, ofText text = .ok trees) ↔ WellNested tokens) ∧
    (∀ trees, ofText text = .ok trees →
      flatten trees = tokens ∧ Formed trees ∧
      (∀ t ∈ flatten trees, t.StandsIn text) ∧
      ((flatten trees).Pairwise fun a b => a.stop.offset ≤ b.start.offset) ∧
      NestingScan.Laid text 0 (flatten trees)) ∧
    (∀ e, ofText text = .error e → NestingFault tokens e) := by
  have htext := ofText_of_lexed h
  refine ⟨?_, fun trees hok => ?_, fun e herror => ?_⟩
  · rw [htext]
    exact exists_ofTokens_iff
  · have hlaid := laid_flatten hok
    rw [htext] at hok
    obtain ⟨hformed, hflatten⟩ := ofTokens_eq_ok_iff.1 hok
    exact ⟨hflatten, hformed, hlaid.standsIn, hlaid.pairwise, hlaid⟩
  · rw [htext] at herror
    exact ofTokens_eq_error herror

/-- A group around a nested comment, closed on the next line. -/
theorem ofText_of_lexes_group :
    Comment.lexed ['(', '/', '*', '/', '*', '*', '/', '*', '/', '\n', ')'] =
        .ok [⟨.opener .paren, "(", ⟨0, 1, 1⟩, ⟨1, 1, 2⟩⟩,
          ⟨.closer .paren, ")", ⟨10, 2, 1⟩, ⟨11, 2, 2⟩⟩] ∧
      ∃ trees, ofText ['(', '/', '*', '/', '*', '*', '/', '*', '/', '\n', ')'] = .ok trees ∧
        Formed trees ∧
        NestingScan.Laid ['(', '/', '*', '/', '*', '*', '/', '*', '/', '\n', ')'] 0
          (flatten trees) := by
  have hlexed : Comment.lexed ['(', '/', '*', '/', '*', '*', '/', '*', '/', '\n', ')'] =
      .ok [⟨.opener .paren, "(", ⟨0, 1, 1⟩, ⟨1, 1, 2⟩⟩,
        ⟨.closer .paren, ")", ⟨10, 2, 1⟩, ⟨11, 2, 2⟩⟩] := by
    decide +kernel
  obtain ⟨hsucceeds, hok, _⟩ := ofText_of_lexes hlexed
  obtain ⟨trees, htrees⟩ := hsucceeds.2 (@WellNested.group .paren _ _ [] [] rfl .nil rfl .nil)
  obtain ⟨_, hformed, _, _, hlaid⟩ := hok trees htrees
  exact ⟨hlexed, trees, htrees, hformed, hlaid⟩

end LuaBindings.TokenTree
