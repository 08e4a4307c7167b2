import LuaBindings.Proofs.Declaration.Neighbours
import LuaBindings.Proofs.TokenTree.Fitting
import LuaBindings.Proofs.TokenTree.Rows

/-!
# Parts of a source that fit

The tokens of a text in which all tokens are shut may be laid out anew behind any text and in
front of any other: neighbouring trees are read as they are on one line (`Neighbours.seals`), and
their rows are lines that open and close nothing together (`Neighbours.lines`).
-/

set_option autoImplicit false

namespace LuaBindings

open NestingScan

/-- The names of tokens that the generated code writes: those of the source, or the one that an
adapter gives to the receiver. -/
def IsNaming (f : Token → Token) : Prop := f = id ∨ f = Token.receiverBound

namespace IsNaming

variable {f : Token → Token} (h : IsNaming f)
include h

theorem start_eq (t : Token) : (f t).start = t.start := by
  rcases h with rfl | rfl <;> rfl

theorem stop_eq (t : Token) : (f t).stop = t.stop := by
  rcases h with rfl | rfl <;> rfl

theorem kind_eq (t : Token) : (f t).kind = t.kind := by
  rcases h with rfl | rfl <;> rfl

/-- The groups do not depend on the names. -/
theorem foldlM_nests (groups : List Delimiter) (tokens : List Token) :
    (tokens.map fun t => (f t).content).foldlM nests groups =
      (tokens.map Token.content).foldlM nests groups := by
  rw [LuaBindings.foldlM_nests, LuaBindings.foldlM_nests, List.map_map, List.map_map]
  exact congrArg _ (List.map_congr_left fun t _ => h.kind_eq t)

end IsNaming

section
variable {text : List Char} {f : Token → Token} (hshut : AllShut text) (hf : IsNaming f)
include hshut hf

/-- A run of the tokens of a text, written under these names from its own start on. -/
theorem Spells.sealed_ofText {new : List Char} {stop : Nat} {run : List Token}
    (h : Spells stop (run.map f) new) (hstart : ∀ t ∈ run.head?, t.start.offset = stop)
    (hpart : run <:+: (ofText text).significant) :
    Sealed new [] (run.map fun t => (f t).content) := by
  cases run with
  | nil =>
    cases h
    exact .nil []
  | cons t run =>
    obtain ⟨front, text', tokens', rfl, hreads, hcut, hfront⟩ := exists_cut hpart
    have hbehind := hshut.behind hreads
    rw [← hstart t rfl] at h
    rcases hf with rfl | rfl
    · rw [List.map_id] at h
      exact h.sealed hcut hbehind hfront
    · exact h.sealed_receiverBound hcut hbehind hfront

namespace Layout

section
variable {σ : Type} {next : σ → Token.Content → Option σ} {s behind : σ}

theorem line_written {row : List Token} (hne : row ≠ [])
    (hpart : row <:+: (ofText text).significant)
    (horder : row.Pairwise fun a b => a.stop.offset ≤ b.start.offset) (indentation : Nat)
    (hrun : (row.map fun t => (f t).content).foldlM next s = some behind) :
    Line next s (written indentation (row.map f)) behind := by
  intro Ends rest hrest
  cases row with
  | nil => exact absurd rfl hne
  | cons t row =>
    have horder' := pairwise_map hf.start_eq hf.stop_eq horder
    have hspells := spells_row (f t).start.offset (isSpace_of_mem_replicate indentation)
      (fun _ => rfl) horder' .nil
    rw [List.append_nil, List.append_nil, ← List.map_cons, hf.start_eq] at hspells
    have hsealed := hspells.sealed_ofText hshut hf (by simp) hpart
    rw [written_toList]
    exact hsealed.completes hrun
      ((hrest.blank (c := '\n') rfl).joins_of_bounded (Terminal.bounded_cons (by decide) _))

theorem lines_written {rows : List (List Token)} (hne : ∀ row ∈ rows, row ≠ [])
    (hpart : rows.flatten <:+: (ofText text).significant)
    (horder : rows.flatten.Pairwise fun a b => a.stop.offset ≤ b.start.offset)
    (indentation : List Token → Nat)
    (hrun : (rows.flatten.map fun t => (f t).content).foldlM next s = some behind) :
    Lines next s (rows.map fun row => written (indentation row) (row.map f)) behind := by
  induction rows generalizing s with
  | nil =>
    cases hrun
    exact .nil _
  | cons row rows ih =>
    obtain ⟨hrow, hrows⟩ := List.forall_mem_cons.1 hne
    rw [List.flatten_cons] at hpart horder hrun
    rw [List.map_append, List.foldlM_append] at hrun
    obtain ⟨middle, hmiddle, hrest⟩ := Option.bind_eq_some_iff.1 hrun
    obtain ⟨hfirst, hothers, -⟩ := List.pairwise_append.1 horder
    refine .cons (line_written hshut hf hrow ?_ hfirst _ hmiddle) (ih hrows ?_ hothers hrest)
    · exact (List.prefix_append _ _).isInfix.trans hpart
    · exact (List.suffix_append _ _).isInfix.trans hpart

end

end Layout
end

/-- Laid out on one line, the trees are read as they are whatever comes behind them. -/
structure Layout.Seals (trees : List TokenTree) : Prop where
  formed : TokenTree.Formed trees
  sealed : Sealed (inline trees).toList [] ((TokenTree.flatten trees).map Token.content)

theorem Layout.Seals.fits {trees : List TokenTree} (h : Seals trees) : Fits (inline trees) :=
  fits_of_sealed h.sealed h.formed.foldlM_nests

namespace TokenTree.Neighbours

variable {text : List Char} {whole xs : List TokenTree} (h : Neighbours whole xs)
  (htrees : ofText text = .ok whole) (hshut : AllShut text)
include h htrees

include hshut

theorem seals : Layout.Seals xs := by
  obtain ⟨stop, hstart, hspells⟩ := Layout.spells_inlineTokens (h.pairwise htrees)
  have hnamed : Spells stop ((flatten xs).map id) (Layout.inline xs).toList := by
    rwa [List.map_id]
  exact ⟨h.formed htrees,
    hnamed.sealed_ofText hshut (.inl rfl) hstart (h.infix_significant htrees)⟩

/-- The rows open and close nothing together, also with the receiver renamed. -/
theorem lines (groups : List Delimiter) :
    Lines nests groups (Layout.lines xs) groups ∧
      Lines nests groups (Layout.lines (Renaming.receiver.trees xs)) groups := by
  have hne := Layout.ne_nil_of_mem_rows (flatten xs)
  have hrows := Layout.flatten_rows (flatten xs)
  have hpart := h.infix_significant htrees
  have horder := h.pairwise htrees
  have hrun := (h.formed htrees).foldlM_nests groups
  rw [← hrows] at hpart horder hrun
  rw [Layout.lines_eq, Renaming.lines_receiver]
  have hnamed {f : Token → Token} (hf : IsNaming f) := Layout.lines_written hshut hf hne hpart
    horder (fun row => Layout.column row - Layout.leastColumn (Layout.rows (flatten xs)))
    ((hf.foldlM_nests groups _).trans hrun)
  refine ⟨?_, hnamed (.inr rfl)⟩
  have hplain := hnamed (.inl rfl)
  simpa using hplain

end TokenTree.Neighbours

end LuaBindings
