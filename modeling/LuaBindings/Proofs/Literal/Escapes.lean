import LuaBindings.Literal
import LuaBindings.Proofs.Token.Thinning

/-!
# Escapes

What a literal is read as, one character or one escape at a time.
-/

set_option autoImplicit false

namespace LuaBindings.Literal

open Terminal (isHexDigit)

theorem codePoint?_eq_none_iff {n : Nat} : codePoint? n = none ↔ 0x110000 ≤ n := by
  rw [codePoint?]
  split <;> simp <;> omega

theorem hexDigit_lt {c : Char} (h : isHexDigit c = true) : hexDigit c < 16 := by
  simp only [isHexDigit, Char.isDigit, Bool.or_eq_true, Bool.and_eq_true, decide_eq_true_eq,
    ge_iff_le, Char.le_def, UInt32.le_iff_toNat_le] at h
  simp only [hexDigit, Char.isDigit, Bool.and_eq_true, decide_eq_true_eq, ge_iff_le, Char.le_def,
    UInt32.le_iff_toNat_le, Char.toNat]
  simp at h ⊢
  split
  · omega
  · split <;> omega

theorem bracedDigits?_eq_some_iff {text digits rest : List Char} :
    bracedDigits? text = some (digits, rest) ↔
      text = '\x7b' :: (digits ++ '\x7d' :: rest) ∧ (∀ c ∈ digits, isHexDigit c = true) ∧
        1 ≤ digits.length ∧ digits.length ≤ 6 := by
  constructor
  · intro h
    unfold bracedDigits? at h
    split at h
    · rename_i tail
      split at h
      · rename_i digits' after hrun
        split at h
        · rename_i hlength
          cases h
          have htake : tail.takeWhile isHexDigit = digits := congrArg Prod.fst hrun
          have hdrop : tail.dropWhile isHexDigit = '\x7d' :: rest := congrArg Prod.snd hrun
          refine ⟨?_, fun c hc => ?_, hlength⟩
          · rw [← htake, ← hdrop, List.takeWhile_append_dropWhile]
          · rw [← htake] at hc
            exact List.mem_takeWhile_imp hc
        · cases h
      · cases h
    · cases h
  · rintro ⟨rfl, hdigits, hlength⟩
    have hrun : Terminal.run isHexDigit (digits ++ '\x7d' :: rest) = (digits, '\x7d' :: rest) :=
      Terminal.run_eq_of_append hdigits (by simp; decide)
    simp [bracedDigits?, hrun, hlength]

theorem hexNumber_twoDigits_lt {text digits rest : List Char}
    (h : twoDigits? text = some (digits, rest)) : hexNumber digits < 0x110000 := by
  unfold twoDigits? at h
  split at h
  · rename_i c d after
    split at h
    · rename_i hhex
      cases h
      have hc := hexDigit_lt hhex.1
      have hd := hexDigit_lt hhex.2
      simp only [hexNumber, List.foldl_cons, List.foldl_nil]
      omega
    · cases h
  · cases h

/-! ### One step of a literal -/

theorem unescape_backslash (c : Char) (rest : List Char) :
    unescape ('\\' :: c :: rest) =
      (escape c rest).bind fun e => (unescape e.rest).map (e.value ++ ·) := by
  rw [unescape, if_pos rfl]
  split <;> simp_all

theorem unescape_char {c : Char} (hc : c ≠ '\\') (rest : List Char) :
    unescape (c :: rest) = (unescape rest).map (c :: ·) := by
  cases rest with
  | nil => simp [unescape]
  | cons d rest => rw [unescape, if_neg hc]

end LuaBindings.Literal
