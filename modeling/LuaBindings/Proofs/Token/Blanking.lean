import LuaBindings.Proofs.Token.Lexeme
import LuaBindings.Proofs.Token.NestingScan

/-!
# Blanks in place of a nested comment

What a comment that holds further comments is overwritten with are blanks and its own line
ends, so places are counted as before. In front of a text they are lexed together with
the blanks behind them and change no other token (`extends_blanks`).
-/

set_option autoImplicit false

namespace LuaBindings

namespace Terminal

theorem next?_blank {c : Char} (hc : isSpace c = true) (text : List Char) :
    next? (c :: text) = some (.space, c :: (run isSpace text).1, (run isSpace text).2) := by
  simp only [isSpace, List.mem_cons, List.not_mem_nil, or_false, decide_eq_true_eq] at hc
  rcases hc with rfl | rfl | rfl | rfl | rfl <;> rfl

/-- Blanks are lexed as one run together with those behind them. -/
theorem run_blanks {blanks : List Char} (hblanks : ∀ c ∈ blanks, isSpace c = true)
    (text : List Char) :
    run isSpace (blanks ++ text) = (blanks ++ (run isSpace text).1, (run isSpace text).2) := by
  rw [run, List.takeWhile_append_of_pos hblanks, List.dropWhile_append_of_pos hblanks, run]

theorem next?_blanks {blanks lead back : List Char} (hne : blanks ≠ [])
    (hblanks : ∀ c ∈ blanks, isSpace c = true)
    (hlead : run isSpace (lead ++ back) = (lead, back)) :
    next? (blanks ++ (lead ++ back)) = some (.space, blanks ++ lead, back) := by
  cases blanks with
  | nil => exact absurd rfl hne
  | cons c blanks =>
    rw [List.cons_append, next?_blank (hblanks c List.mem_cons_self),
      run_blanks fun d hd => hblanks d (List.mem_cons_of_mem c hd), hlead]
    rfl

theorem forall_mem_of_space {text lexeme rest : List Char} (h : space text = some (lexeme, rest)) :
    ∀ c ∈ lexeme, isSpace c = true := by
  unfold space word at h
  split at h
  · split at h
    · rename_i hc
      obtain ⟨tail, hrun, rfl⟩ := prepend_eq_some h
      cases hrun
      exact List.forall_mem_cons.2 ⟨hc, fun d hd => List.mem_takeWhile_imp hd⟩
    · cases h
  · cases h

theorem throughNestedEnd_ne_nil {depth : Nat} {text lexeme rest : List Char}
    (h : throughNestedEnd depth text = some (lexeme, rest)) : lexeme ≠ [] := by
  unfold throughNestedEnd at h
  split at h
  · cases h
  · obtain ⟨tail, _, rfl⟩ := prepend_eq_some h
    simp
  · cases h
    simp
  · obtain ⟨tail, _, rfl⟩ := prepend_eq_some h
    simp
  · obtain ⟨tail, _, rfl⟩ := prepend_eq_some h
    simp

theorem throughNestedEnd_keeps {depth : Nat} {lexeme old : List Char} (new : List Char)
    (h : throughNestedEnd depth (lexeme ++ old) = some (lexeme, old)) :
    throughNestedEnd depth (lexeme ++ new) = some (lexeme, new) := by
  generalize htext : lexeme ++ old = text at h
  fun_induction throughNestedEnd depth text generalizing lexeme with
  | case1 => cases h
  | case2 depth rest ih =>
    obtain ⟨tail, hsplit, rfl⟩ := prepend_eq_some h
    have hrest : tail ++ old = rest := by simpa using htext
    exact prepend_append (ih hrest hsplit)
  | case3 rest =>
    cases h
    rfl
  | case4 depth rest ih =>
    obtain ⟨tail, hsplit, rfl⟩ := prepend_eq_some h
    have hrest : tail ++ old = rest := by simpa using htext
    exact prepend_append (ih hrest hsplit)
  | case5 depth c rest hopen hclose hclose' ih =>
    obtain ⟨tail, hsplit, rfl⟩ := prepend_eq_some h
    have hrest : tail ++ old = rest := (List.cons.inj htext).2
    have hkeep := ih hrest hsplit
    have hhead : ∀ d back, tail ++ new = d :: back → rest = d :: (tail.drop 1 ++ old) := by
      intro d back hback
      cases tail with
      | nil => exact absurd rfl (throughNestedEnd_ne_nil hsplit)
      | cons e tail =>
        rw [← (List.cons.inj hback).1, ← hrest]
        rfl
    rw [List.append_assoc, List.singleton_append, throughNestedEnd, hkeep]
    · rfl
    · intro back hc hback
      exact hopen _ hc (hhead _ _ hback)
    · intro back hdepth hc hback
      exact hclose _ hdepth hc (hhead _ _ hback)
    · intro depth' back hdepth hc hback
      exact hclose' _ _ hdepth hc (hhead _ _ hback)

theorem nestedComment_keeps {lexeme old : List Char} (new : List Char)
    (h : nestedComment (lexeme ++ old) = some (lexeme, old)) :
    nestedComment (lexeme ++ new) = some (lexeme, new) := by
  unfold nestedComment at h
  split at h
  · obtain ⟨tail, hsplit, rfl⟩ := prepend_eq_some h
    rw [← throughNestedEnd_splits _ _ _ _ hsplit] at hsplit
    exact prepend_append (throughNestedEnd_keeps new hsplit)
  · cases h

end Terminal

namespace Comment

theorem isSpace_blankChar (c : Char) : Terminal.isSpace (blankChar c) = true := by
  unfold blankChar
  split
  · rename_i h
    rcases h with rfl | rfl <;> rfl
  · rfl

/-- Line ends are told apart from all else before and after. -/
theorem blankChar_eq_iff {c mark : Char} (hmark : mark = '\r' ∨ mark = '\n') :
    blankChar c = mark ↔ c = mark := by
  unfold blankChar
  split
  · rfl
  · rename_i h
    constructor
    · rintro rfl
      exact absurd hmark (by decide)
    · rintro rfl
      exact absurd hmark h

theorem next_blankChar (here : Location) (c : Char) : here.next (blankChar c) = here.next c := by
  unfold Location.next
  simp only [blankChar_eq_iff (Or.inr rfl)]

theorem after_map_blankChar (here : Location) (text : List Char) :
    here.after (text.map blankChar) = here.after text := by
  induction text generalizing here with
  | nil => rfl
  | cons c text ih =>
    change (here.next (blankChar c)).after (text.map blankChar) = (here.next c).after text
    rw [next_blankChar, ih]

theorem forall_mem_map_blankChar (text : List Char) :
    ∀ c ∈ text.map blankChar, Terminal.isSpace c = true := by
  intro c hc
  obtain ⟨d, _, rfl⟩ := List.mem_map.1 hc
  exact isSpace_blankChar d

end Comment

namespace Token

def isNested (t : Token) : Bool :=
  t.kind == .blockComment && Terminal.blockComment t.text.toList != some (t.text.toList, [])

/-- What stands in the place of a token once nested comments are overwritten. -/
def blanked (t : Token) : List Char :=
  if t.isNested then t.text.toList.map Comment.blankChar else t.text.toList

theorem blanked_eq_self {t : Token} (h : t.isNested = false) : t.blanked = t.text.toList := by
  simp [blanked, h]

theorem isNested_eq_false {t : Token}
    (h : t.kind = .blockComment →
      Terminal.blockComment t.text.toList = some (t.text.toList, [])) : t.isNested = false := by
  by_cases hkind : t.kind = .blockComment
  · simp [isNested, h hkind]
  · simp [isNested, hkind]

theorem length_blanked (t : Token) : t.blanked.length = t.text.toList.length := by
  unfold blanked
  split
  · exact List.length_map _
  · rfl

/-- Line ends stay. -/
theorem getElem?_blanked_eq_iff (t : Token) {mark : Char} (hmark : mark = '\r' ∨ mark = '\n')
    (i : Nat) : t.blanked[i]? = some mark ↔ t.text.toList[i]? = some mark := by
  unfold blanked
  split
  · simp [Comment.blankChar_eq_iff hmark]
  · rfl

end Token

namespace NestingScan

/-- The text of the scan with its nested comments overwritten. -/
def blanked (scan : NestingScan) : List Char := scan.tokens.flatMap Token.blanked

/-- Behind some trivia, which read as the given characters once nested comments are
overwritten, a scan goes on as another does. -/
structure Extends (front : List Char) (scan tail : NestingScan) : Prop where
  significant : scan.significant = tail.significant
  fault : scan.fault = tail.fault
  blanked : scan.blanked = front ++ tail.blanked

theorem Extends.refl (scan : NestingScan) : Extends [] scan scan := ⟨rfl, rfl, rfl⟩

theorem Extends.trans {a b : List Char} {x y z : NestingScan} (hx : Extends a x y)
    (hy : Extends b y z) : Extends (a ++ b) x z where
  significant := hx.significant.trans hy.significant
  fault := hx.fault.trans hy.fault
  blanked := by rw [hx.blanked, hy.blanked, List.append_assoc]

/-- Two scans that go on alike behind the same characters. -/
theorem Extends.cancel {a b : List Char} {x y z : NestingScan} (hx : Extends (a ++ b) x z)
    (hy : Extends b y z) : Extends a x y where
  significant := hx.significant.trans hy.significant.symm
  fault := hx.fault.trans hy.fault.symm
  blanked := by rw [hx.blanked, hy.blanked, List.append_assoc]

theorem step_of_next? {text lexeme rest : List Char} {kind : TokenKind}
    (h : Terminal.next? text = some (kind, lexeme, rest))
    (hnested : kind = .blockComment → Terminal.nestedComment text = some (lexeme, rest)) :
    step text = .token kind lexeme rest := by
  unfold step
  rw [h]
  cases kind with
  | blockComment => simp only [Terminal.countedComment_eq, hnested rfl]
  | _ => rfl

/-- A token of both scans in front of scans that agree. -/
theorem Extends.token {t : Token} {x y : NestingScan} (h : Extends [] x y) :
    Extends [] ⟨t :: x.tokens, x.fault⟩ ⟨t :: y.tokens, y.fault⟩ where
  significant := by
    have hsignificant := h.significant
    unfold NestingScan.significant at hsignificant ⊢
    rw [List.filter_cons, List.filter_cons, hsignificant]
  fault := h.fault
  blanked := by
    have hblanked := h.blanked
    unfold NestingScan.blanked at hblanked ⊢
    rw [List.flatMap_cons, List.flatMap_cons, hblanked]
    rfl

/-- Trivia in front of a scan. -/
theorem extends_trivia {t : Token} (h : t.kind.isTrivia = true) (x : NestingScan) :
    Extends t.blanked ⟨t :: x.tokens, x.fault⟩ x where
  significant := List.filter_cons_of_neg (by simp [h])
  fault := rfl
  blanked := List.flatMap_cons

/-- The blanks at the front of a text are one token at most. -/
theorem extends_run (here : Location) (text : List Char) :
    Extends (Terminal.run Terminal.isSpace text).1 (scanFrom here text)
      (scanFrom (here.after (Terminal.run Terminal.isSpace text).1)
        (Terminal.run Terminal.isSpace text).2) := by
  cases text with
  | nil => exact .refl _
  | cons c text =>
    by_cases hc : Terminal.isSpace c = true
    · have hnext := Terminal.next?_blank hc text
      have hrun : Terminal.run Terminal.isSpace (c :: text) =
          (c :: (Terminal.run Terminal.isSpace text).1,
            (Terminal.run Terminal.isSpace text).2) := by
        simp [Terminal.run, hc]
      rw [scanFrom_token (step_of_next? hnext fun hkind => absurd hkind (by decide)), hrun]
      have hspace := extends_trivia (t := ⟨.space,
        String.ofList (c :: (Terminal.run Terminal.isSpace text).1), here,
        here.after (c :: (Terminal.run Terminal.isSpace text).1)⟩) rfl
        (scanFrom (here.after (c :: (Terminal.run Terminal.isSpace text).1))
          (Terminal.run Terminal.isSpace text).2)
      rw [Token.blanked_eq_self rfl, String.toList_ofList] at hspace
      exact hspace
    · have hrun : Terminal.run Terminal.isSpace (c :: text) = ([], c :: text) := by
        simp [Terminal.run, hc]
      rw [hrun]
      exact .refl _

/-- Blanks in front of a text change nothing behind them. -/
theorem extends_blanks {blanks : List Char} (hblanks : ∀ c ∈ blanks, Terminal.isSpace c = true)
    (here : Location) (text : List Char) :
    Extends blanks (scanFrom here (blanks ++ text)) (scanFrom (here.after blanks) text) := by
  have hlong := extends_run here (blanks ++ text)
  rw [Terminal.run_blanks hblanks, Location.after_append] at hlong
  exact hlong.cancel (extends_run _ _)

end NestingScan
end LuaBindings
