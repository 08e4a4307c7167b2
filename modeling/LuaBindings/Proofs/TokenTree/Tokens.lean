import LuaBindings.TokenTree
import Mathlib.Tactic.Common

/-!
# Tokens as trees

Marks, words and tokens of a kind as trees, and what they are not taken for.
-/

set_option autoImplicit false

namespace LuaBindings

abbrev Token.Mark (text : String) := { t : Token // t.isPunct text = true }

abbrev Token.Word (name : String) := { t : Token // t.isIdent name = true }

abbrev Token.OfKind (kind : TokenKind) := { t : Token // t.kind = kind }

def TokenTree.maybe {p : Token → Prop} (t : Option { t : Token // p t }) : List TokenTree :=
  (t.map fun u => .token u.1).toList

/-! ### Kinds and texts -/

theorem Token.Mark.kind_eq {text : String} (m : Token.Mark text) : m.1.kind = .punct := by
  have h := m.2
  simp only [Token.isPunct, Bool.and_eq_true, beq_iff_eq] at h
  exact h.1

theorem Token.Word.kind_eq {name : String} (w : Token.Word name) : w.1.kind = .ident := by
  have h := w.2
  simp only [Token.isIdent, Bool.and_eq_true, beq_iff_eq] at h
  exact h.1

theorem Token.Word.text_eq {name : String} (w : Token.Word name) : w.1.text = name := by
  have h := w.2
  simp only [Token.isIdent, Bool.and_eq_true, beq_iff_eq] at h
  exact h.2

namespace TokenTree

theorem token?_token (p : Token → Bool) (t : Token) (h : p t = true) :
    (token t).token? p = some t := by
  rw [token?, if_pos h]

theorem isPunct_iff {tree : TokenTree} {text : String} :
    tree.isPunct text = true ↔ ∃ t, tree = .token t ∧ t.kind = .punct ∧ t.text = text := by
  cases tree with
  | token t => simp [isPunct, isToken, token?, Token.isPunct]
  | group d opener inner closer => simp [isPunct, isToken, token?]

/-- A tree is one punctuation mark at most. -/
theorem isPunct_eq_false {tree : TokenTree} {text other : String} (h : tree.isPunct text = true)
    (hne : other ≠ text) : tree.isPunct other = false := by
  obtain ⟨t, rfl, _, rfl⟩ := isPunct_iff.1 h
  rw [Bool.eq_false_iff]
  intro hother
  obtain ⟨u, hu, _, htext⟩ := isPunct_iff.1 hother
  cases hu
  exact hne htext.symm

theorem isPunct_of_token {text : String} (t : Token) (h : t.isPunct text = true) :
    (token t).isPunct text = true := by
  rw [isPunct, isToken, token?_token _ _ h]
  rfl

theorem isPunct_mark {text : String} (m : Token.Mark text) : (token m.1).isPunct text = true :=
  isPunct_of_token m.1 m.2

theorem isPunct_eq_false_of_kind {t : Token} (h : t.kind ≠ .punct) (text : String) :
    (token t).isPunct text = false := by
  simp [isPunct, isToken, token?, Token.isPunct, h]

theorem isIdent_token (t : Token) (name : String) : (token t).isIdent name = t.isIdent name := by
  by_cases h : t.isIdent name = true <;> simp [isIdent, isToken, token?, h]

end TokenTree
end LuaBindings
