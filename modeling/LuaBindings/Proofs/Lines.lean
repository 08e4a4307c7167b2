import LuaBindings.Proofs.Token.Thinning
import LuaBindings.Text.Lines

/-!
# Texts that are one line

A text without a line boundary is one line, however the text is cut that it is part of. Such lines
that are joined by line feeds and cut again are the lines they were (`splitLines_intercalate`),
unless one of them is empty.
-/

set_option autoImplicit false

namespace LuaBindings.Text

def Unbroken (text : String) : Prop := text.toList.all (fun c => !isLineBoundary c) = true

/-! ### Parts of a line -/

theorem unbroken_iff {text : String} :
    Unbroken text ↔ ∀ c ∈ text.toList, isLineBoundary c = false := by
  simp [Unbroken]

theorem unbroken_ofList {chars : List Char}
    (h : chars.all (fun c => !isLineBoundary c) = true) : Unbroken (String.ofList chars) := by
  rwa [Unbroken, String.toList_ofList]

theorem Unbroken.append {front back : String} (hfront : Unbroken front) (hback : Unbroken back) :
    Unbroken (front ++ back) := by
  rw [Unbroken, String.toList_append, List.all_append, Bool.and_eq_true]
  exact ⟨hfront, hback⟩

theorem unbroken_singleton {c : Char} (h : isLineBoundary c = false) :
    Unbroken (String.singleton c) := by
  simp [Unbroken, h]

theorem isLineBoundary_of_isNameChar {c : Char} (h : Terminal.isNameChar c = true) :
    isLineBoundary c = false := by
  by_contra hbreak
  simp only [isLineBoundary, List.mem_cons, List.not_mem_nil, or_false, Bool.not_eq_false,
    decide_eq_true_eq] at hbreak
  rcases hbreak with rfl | rfl | rfl | rfl | rfl | rfl | rfl | rfl | rfl | rfl <;>
    exact absurd h (by decide)

theorem unbroken_nat (n : Nat) : Unbroken (toString n) := by
  refine unbroken_iff.2 fun c hc => isLineBoundary_of_isNameChar (Terminal.isNameChar_of_isDigit ?_)
  rw [show toString n = Nat.repr n from rfl, Nat.toList_repr] at hc
  exact Nat.isDigit_of_mem_toDigits (by decide) (by decide) hc

/-! ### Cutting -/

theorem cutLines_cons {c : Char} (hc : isLineBoundary c = false) (rest : List Char) :
    cutLines (c :: rest) = extendFirst c (cutLines rest) := by
  have hreturn : ∀ more, c = '\r' → rest = '\n' :: more → False := by
    rintro _ rfl _
    cases hc
  rw [cutLines.eq_3 c rest hreturn, hc]
  rfl

/-- A line ends at a line feed. -/
theorem cutLines_line_feed {line : List Char} (h : ∀ c ∈ line, isLineBoundary c = false)
    (rest : List Char) : cutLines (line ++ '\n' :: rest) = line :: cutLines rest := by
  induction line with
  | nil => rfl
  | cons c line ih =>
    obtain ⟨hc, hline⟩ := List.forall_mem_cons.1 h
    rw [List.cons_append, cutLines_cons hc, ih hline, extendFirst]

/-- The last line ends where the text does. -/
theorem cutLines_line {line : List Char} (h : ∀ c ∈ line, isLineBoundary c = false)
    (hne : line ≠ []) : cutLines line = [line] := by
  induction line with
  | nil => exact absurd rfl hne
  | cons c line ih =>
    obtain ⟨hc, hline⟩ := List.forall_mem_cons.1 h
    rw [cutLines_cons hc]
    cases line with
    | nil => rfl
    | cons d line => rw [ih hline (List.cons_ne_nil _ _), extendFirst]

theorem cutLines_intercalate {lines : List (List Char)}
    (h : ∀ line ∈ lines, line ≠ [] ∧ ∀ c ∈ line, isLineBoundary c = false) :
    cutLines (['\n'].intercalate lines) = lines := by
  induction lines with
  | nil => rfl
  | cons line lines ih =>
    obtain ⟨⟨hne, hline⟩, hlines⟩ := List.forall_mem_cons.1 h
    cases lines with
    | nil => rw [List.intercalate_singleton, cutLines_line hline hne]
    | cons next lines =>
      rw [List.intercalate_cons_cons, List.append_assoc, List.singleton_append,
        cutLines_line_feed hline, ih hlines]

theorem splitLines_intercalate {lines : List String}
    (h : ∀ line ∈ lines, line ≠ "" ∧ Unbroken line) :
    splitLines (String.intercalate "\n" lines) = lines := by
  have hcut : cutLines (['\n'].intercalate (lines.map String.toList)) =
      lines.map String.toList := by
    refine cutLines_intercalate fun line hline => ?_
    obtain ⟨text, htext, rfl⟩ := List.mem_map.1 hline
    obtain ⟨hne, hunbroken⟩ := h text htext
    exact ⟨mt String.toList_eq_nil_iff.1 hne, unbroken_iff.1 hunbroken⟩
  have htext : (String.intercalate "\n" lines).toList =
      ['\n'].intercalate (lines.map String.toList) := String.toList_intercalate
  rw [splitLines, htext, hcut, List.map_map]
  exact List.map_id'' (fun _ => String.ofList_toList) lines

end LuaBindings.Text
