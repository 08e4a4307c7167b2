import LuaBindings.Proofs.Token.Rewording
import LuaBindings.Proofs.Token.Spelling
import LuaBindings.TokenTree.Renaming

/-!
# Tokens under another name

Tokens spelled with the adapter's name in the place of the receiver keyword lex into the
tokens that they should, though the layout goes by where the keyword stood
(`Spells.lexes_receiverBound`). The spelled text is compared with the one that keeps the
keyword: the two differ in names only.
-/

set_option autoImplicit false

namespace LuaBindings

namespace Token

/-- The token with the adapter's name for the receiver in the place of the keyword. -/
def receiverBound (t : Token) : Token :=
  { t with text := if t.kind = .ident ∧ t.text = "self" then "__cb_this" else t.text }

@[simp] theorem receiverBound_kind (t : Token) : t.receiverBound.kind = t.kind := rfl

@[simp] theorem receiverBound_start (t : Token) : t.receiverBound.start = t.start := rfl

@[simp] theorem receiverBound_stop (t : Token) : t.receiverBound.stop = t.stop := rfl

theorem receiverBound_of_self {t : Token} (h : t.kind = .ident ∧ t.text = "self") :
    t.receiverBound.text = "__cb_this" := if_pos h

theorem receiverBound_of_not {t : Token} (h : ¬ (t.kind = .ident ∧ t.text = "self")) :
    t.receiverBound = t := by
  rw [receiverBound, if_neg h]

end Token

theorem Renaming.token_receiver (t : Token) : token receiver t = t.receiverBound := by
  unfold token
  split
  · rename_i hkind
    by_cases hself : t.text = "self"
    · simp [Token.receiverBound, name, receiver, receiverBinding, hkind, hself]
    · have hne : (t.text == "self") = false := beq_false_of_ne hself
      simp [Token.receiverBound, name, receiver, hself, hne]
  · rename_i hkind
    rw [Token.receiverBound_of_not fun h => hkind h.1]

namespace Terminal

/-- The token is taken under its new name, before the rest under its new names. -/
theorem next?_receiverBound {t : Token} {old new : List Char}
    (h : next? (t.text.toList ++ old) = some (t.kind, t.text.toList, old))
    (hr : Reworded old new) :
    next? (t.receiverBound.text.toList ++ new) =
        some (t.kind, t.receiverBound.text.toList, new) ∧
      Reworded (t.text.toList ++ old) (t.receiverBound.text.toList ++ new) := by
  obtain ⟨halone, hfollows⟩ := next?_append_iff.1 h
  by_cases hself : t.kind = .ident ∧ t.text = "self"
  · rw [Token.receiverBound_of_self hself]
    rw [hself.1] at hfollows ⊢
    rw [hself.2]
    have hhead := hr.respelled.head_not_nameChar hfollows.1
    have hname : next? "__cb_this".toList = some (.ident, "__cb_this".toList, []) := by
      decide +kernel
    have hprefix : "__cb_this".toList ∉ [['r'], ['b', 'r'], ['b']] := by decide
    simp only [List.mem_cons, List.not_mem_nil, or_false, not_or] at hprefix
    exact ⟨next?_of_follows hname ⟨hhead, (absurd · hprefix.1), (absurd · hprefix.2.1),
        (absurd · hprefix.2.2)⟩,
      .name (by decide) (by decide) hr⟩
  · rw [Token.receiverBound_of_not hself]
    exact ⟨next?_of_follows halone (follows_reworded hr hfollows), .token h hr⟩

end Terminal

namespace Spells

open NestingScan

/-- Tokens are written under their new names, and the text that spells them differs in
names only from one that spells the tokens of the text. -/
theorem exists_reworded {here : Location} {text new : List Char} {tokens run : List Token}
    {fault : Option Diagnostic} (h : Spells here.offset (run.map Token.receiverBound) new)
    (hcut : Cut here text tokens fault)
    (hfront : run <+: tokens.filter fun t => !t.kind.isTrivia) :
    Written new ((run.map Token.receiverBound).map Token.bare) ∧
      ∃ kept, Spells here.offset run kept ∧ Terminal.Reworded kept new := by
  induction run generalizing here text tokens new with
  | nil =>
    cases h
    exact ⟨.nil, [], .nil _, .nil⟩
  | cons t rest ih =>
    cases h with
    | @cons _ blanks new _ _ hblanks htouch hspells =>
      obtain ⟨more, hmore⟩ := hfront
      obtain ⟨skipped, after, tokens', rfl, _, hstart, hkind, hnext, _, hcut', hrest⟩ :=
        hcut.exists_next hmore.symm
      have hfront' : rest <+: tokens'.filter fun t => !t.kind.isTrivia := ⟨more, hrest.symm⟩
      obtain ⟨hwritten, kept, hkept, hreworded⟩ := ih hspells hcut' hfront'
      have hnext' := Terminal.next?_respaced hnext (respaced hkept hcut' hfront')
        (ne_of_isTrivia hkind rfl).elim (ne_of_isTrivia hkind rfl).elim
      obtain ⟨hbound, hword⟩ := Terminal.next?_receiverBound hnext' hreworded
      exact ⟨hwritten.cons hblanks hkind hbound, _, .cons hblanks htouch hkept,
        hword.blanks hblanks⟩

theorem lexes_receiverBound {text new : List Char} {stop : Nat} {run : List Token}
    (h : Spells stop (run.map Token.receiverBound) new)
    (hstart : ∀ t ∈ run.head?, t.start.offset = stop)
    (hpart : run <:+: (ofText text).significant) :
    LexesTo new ((run.map Token.receiverBound).map Token.bare) := by
  cases run with
  | nil =>
    cases h
    exact lexesTo_nil
  | cons t run =>
    obtain ⟨_, text', tokens', _, _, hcut, hfront⟩ := exists_cut hpart
    rw [← hstart t rfl] at h
    exact (h.exists_reworded hcut hfront).1.lexesTo

end Spells

end LuaBindings
