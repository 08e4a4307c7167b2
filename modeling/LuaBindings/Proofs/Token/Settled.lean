import LuaBindings.Proofs.Token.Blanking
import LuaBindings.Proofs.Token.Respacing

/-!
# What both lexers take

A stretch of a text is settled where plain lexing takes no block comment short of where
its nesting ends, so that lexing with nested comments takes the same tokens. Overwriting a
nested comment behind a settled stretch leaves the stretch settled, and adds the blanks to
it.
-/

set_option autoImplicit false

namespace LuaBindings

namespace Scan

theorem scanFrom_none {here : Location} {text : List Char} (h : Terminal.next? text = none) :
    scanFrom here text = ⟨[], text.head?.map fun c => (c, here)⟩ := by
  rw [scanFrom]
  split <;> simp_all

theorem scanFrom_some {here : Location} {text lexeme rest : List Char} {kind : TokenKind}
    (h : Terminal.next? text = some (kind, lexeme, rest)) :
    scanFrom here text =
      ⟨⟨kind, String.ofList lexeme, here, here.after lexeme⟩ ::
        (scanFrom (here.after lexeme) rest).tokens, (scanFrom (here.after lexeme) rest).stray⟩ := by
  rw [scanFrom]
  split <;> simp_all

end Scan

namespace NestingScan

/-- From a place on, both lexers take the same tokens off the given characters, and leave
the rest. -/
inductive Settled : Location → List Char → List Char → List Token → Prop
  | nil (here : Location) (rest : List Char) : Settled here [] rest []
  | cons {here : Location} {kind : TokenKind} {lexeme front rest : List Char}
    {tokens : List Token} :
    Terminal.next? (lexeme ++ (front ++ rest)) = some (kind, lexeme, front ++ rest) →
    (kind = .blockComment →
      Terminal.nestedComment (lexeme ++ (front ++ rest)) = some (lexeme, front ++ rest)) →
    Settled (here.after lexeme) front rest tokens →
    Settled here (lexeme ++ front) rest
      (⟨kind, String.ofList lexeme, here, here.after lexeme⟩ :: tokens)

section
variable {here : Location} {front rest : List Char} {tokens : List Token}

theorem Settled.append {middle : List Char} {more : List Token}
    (h : Settled here front (middle ++ rest) tokens)
    (hmore : Settled (here.after front) middle rest more) :
    Settled here (front ++ middle) rest (tokens ++ more) := by
  generalize hwhole : middle ++ rest = whole at h
  induction h with
  | nil => exact hmore
  | @cons here kind lexeme front _ tokens hnext hnested _ ih =>
    subst hwhole
    rw [Location.after_append] at hmore
    rw [← List.append_assoc front] at hnext hnested
    rw [List.append_assoc, List.cons_append]
    exact .cons hnext hnested (ih hmore rfl)

theorem Settled.scan_eq (h : Settled here front rest tokens) :
    Scan.scanFrom here (front ++ rest) =
      ⟨tokens ++ (Scan.scanFrom (here.after front) rest).tokens,
        (Scan.scanFrom (here.after front) rest).stray⟩ := by
  induction h with
  | nil => rfl
  | cons hnext _ _ ih =>
    rw [List.append_assoc, Scan.scanFrom_some hnext, ih, Location.after_append]
    rfl

theorem Settled.nestingScan_eq (h : Settled here front rest tokens) :
    scanFrom here (front ++ rest) =
      ⟨tokens ++ (scanFrom (here.after front) rest).tokens,
        (scanFrom (here.after front) rest).fault⟩ := by
  induction h with
  | nil => rfl
  | cons hnext hnested _ ih =>
    rw [List.append_assoc, scanFrom_token (step_of_next? hnext hnested), ih, Location.after_append]
    rfl

/-- Nothing is overwritten in a settled stretch. -/
theorem Settled.blanked_eq (h : Settled here front rest tokens) :
    tokens.flatMap Token.blanked = front := by
  induction h with
  | nil => rfl
  | @cons here kind lexeme front rest tokens hnext _ _ ih =>
    rw [List.flatMap_cons, ih, Token.blanked_eq_self, String.toList_ofList]
    refine Token.isNested_eq_false fun hkind => ?_
    cases hkind
    have hcomment := Terminal.blockComment_keeps [] (Terminal.blockComment_of_next? hnext)
    simpa using hcomment

/-- Every block comment of a settled stretch ends where its nesting ends. -/
theorem Settled.nestedStop?_eq (h : Settled here front rest tokens) {text : List Char}
    (htext : text.drop here.offset = front ++ rest) :
    ∀ t ∈ tokens, t.kind = .blockComment →
      Comment.nestedStop? text t.start.offset = some t.stop.offset := by
  induction h with
  | nil => simp
  | @cons here kind lexeme front rest tokens _ hnested _ ih =>
    rw [List.append_assoc] at htext
    refine List.forall_mem_cons.2 ⟨fun hkind => ?_, ih ?_⟩
    · rw [Comment.nestedStop?, htext, hnested hkind, Location.after_offset]
      rfl
    · rw [Location.after_offset, ← List.drop_drop, htext, List.drop_left]

theorem Settled.firstNested?_append (h : Settled here front rest tokens) {text : List Char}
    (htext : text.drop here.offset = front ++ rest) (start : Nat) (more : List Token) :
    Comment.firstNested? text start (tokens ++ more) = Comment.firstNested? text start more := by
  have hnone : tokens.find? (fun t => t.kind == .blockComment && start ≤ t.start.offset &&
      Comment.nestedStop? text t.start.offset != some t.stop.offset) = none := by
    refine List.find?_eq_none.2 fun t ht => ?_
    by_cases hkind : t.kind = .blockComment
    · simp [h.nestedStop?_eq htext t ht hkind]
    · simp [hkind]
  rw [Comment.firstNested?, Comment.firstNested?, List.find?_append, hnone, Option.none_or]

theorem Settled.respaced {new : List Char} (h : Settled here front rest tokens)
    (hr : Terminal.Respaced rest new) : Terminal.Respaced (front ++ rest) (front ++ new) := by
  induction h with
  | nil => exact hr
  | cons hnext _ _ ih =>
    rw [List.append_assoc, List.append_assoc]
    exact .token hnext (ih hr)

end

/-! ### Behind a settled stretch -/

section
variable {here : Location} {front comment after : List Char} {tokens : List Token}

theorem nestedComment_head {text : List Char} {split : List Char × List Char}
    (h : Terminal.nestedComment text = some split) : text.head? = some '/' := by
  unfold Terminal.nestedComment at h
  split at h
  · rfl
  · cases h

theorem map_blankChar_ne_nil
    (h : Terminal.nestedComment (comment ++ after) = some (comment, after)) :
    comment.map Comment.blankChar ≠ [] := by
  rw [Ne, List.map_eq_nil_iff]
  exact (Terminal.nestedComment_sound _ _ _ h).2

/-- A token before a nested comment is taken before the blanks in its place too, unless it
consists of blanks itself and touches them. -/
theorem Settled.next?_blank {lexeme : List Char} {kind : TokenKind}
    (h : Settled here front (comment ++ after) tokens)
    (hcomment : Terminal.nestedComment (comment ++ after) = some (comment, after))
    (hnext : Terminal.next? (lexeme ++ (front ++ (comment ++ after))) =
      some (kind, lexeme, front ++ (comment ++ after)))
    (hspace : kind = .space → front ≠ []) :
    Terminal.next? (lexeme ++ (front ++ (comment.map Comment.blankChar ++ after))) =
      some (kind, lexeme, front ++ (comment.map Comment.blankChar ++ after)) := by
  have hne := map_blankChar_ne_nil hcomment
  have hr := h.respaced (.blanks comment hne (Comment.forall_mem_map_blankChar comment)
    (.same after))
  have hhead : front ≠ [] → ∀ back back', (front ++ back).head? = (front ++ back').head? := by
    intro hfront back back'
    rw [List.head?_append_of_ne_nil _ hfront, List.head?_append_of_ne_nil _ hfront]
  refine Terminal.next?_respaced hnext hr ?_ ?_
  · rintro rfl
    rw [hhead (hspace rfl) _ (comment ++ after)]
    exact Terminal.head_of_space (Terminal.space_of_next? hnext)
  · rintro rfl
    have hfeed := Terminal.head_of_lineComment (Terminal.lineComment_of_next? hnext)
    -- the comment itself is no line feed, so the line comment does not touch it
    have hfront : front ≠ [] := by
      rintro rfl
      exact absurd (hfeed '/' (nestedComment_head hcomment)) (by decide)
    rwa [hhead hfront _ (comment ++ after)]

theorem settled_blanks {blanks lead back : List Char} (hne : blanks ≠ [])
    (hblanks : ∀ c ∈ blanks, Terminal.isSpace c = true)
    (hlead : Terminal.run Terminal.isSpace (lead ++ back) = (lead, back)) :
    ∃ tokens, Settled here (blanks ++ lead) back tokens := by
  have hnext := Terminal.next?_blanks hne hblanks hlead
  rw [← List.append_assoc] at hnext
  have hsettled : Settled here (blanks ++ lead ++ []) back
      [⟨.space, String.ofList (blanks ++ lead), here, here.after (blanks ++ lead)⟩] :=
    .cons hnext nofun (.nil _ _)
  rw [List.append_nil] at hsettled
  exact ⟨_, hsettled⟩

/-- The stretch grows over the blanks that have come in the place of a nested comment. -/
theorem Settled.blank {lead back : List Char}
    (h : Settled here front (comment ++ (lead ++ back)) tokens)
    (hcomment : Terminal.nestedComment (comment ++ (lead ++ back)) = some (comment, lead ++ back))
    (hlead : Terminal.run Terminal.isSpace (lead ++ back) = (lead, back)) :
    ∃ tokens', Settled here (front ++ (comment.map Comment.blankChar ++ lead)) back tokens' := by
  have hne := map_blankChar_ne_nil hcomment
  have hblanks := Comment.forall_mem_map_blankChar comment
  generalize hrest : comment ++ (lead ++ back) = rest at h
  induction h with
  | nil here rest =>
    rw [List.nil_append]
    exact settled_blanks hne hblanks hlead
  | @cons here kind lexeme front rest tokens hnext hnested htail ih =>
    subst hrest
    by_cases hspace : kind = .space → front ≠ []
    · obtain ⟨tokens', htail'⟩ := ih rfl
      have hnext' := htail.next?_blank hcomment hnext hspace
      rw [← List.append_assoc _ lead, ← List.append_assoc front] at hnext'
      rw [List.append_assoc]
      refine ⟨_, .cons hnext' (fun hkind => ?_) htail'⟩
      exact Terminal.nestedComment_keeps _ (hnested hkind)
    · -- the blanks join the run of blanks before them
      obtain ⟨rfl, hfront⟩ := Classical.not_imp.1 hspace
      rw [not_ne_iff.1 hfront] at hnext ⊢
      have hlexeme := Terminal.forall_mem_of_space (Terminal.space_of_next? hnext)
      rw [List.append_nil, ← List.append_assoc]
      exact settled_blanks (by simp [hne]) (List.forall_mem_append.2 ⟨hlexeme, hblanks⟩) hlead

/-- Lexing in one pass goes on behind the blanks as behind the nested comment. -/
theorem extends_nestedComment {lexeme rest : List Char} (here : Location)
    (hnext : Terminal.next? (comment ++ after) = some (.blockComment, lexeme, rest))
    (hcomment : Terminal.nestedComment (comment ++ after) = some (comment, after))
    (hnested : (comment, after) ≠ (lexeme, rest)) :
    Extends (comment.map Comment.blankChar) (scanFrom here (comment ++ after))
      (scanFrom (here.after comment) after) := by
  have hstep : step (comment ++ after) = .token .blockComment comment after := by
    unfold step
    rw [hnext, Terminal.countedComment_eq, hcomment]
  have hskip := extends_trivia (t := ⟨.blockComment, String.ofList comment, here,
    here.after comment⟩) rfl (scanFrom (here.after comment) after)
  have hmarked : Terminal.blockComment comment ≠ some (comment, []) := by
    intro h
    have hwhole : Terminal.blockComment (comment ++ []) = some (comment, []) := by
      rwa [List.append_nil]
    have hkeep := Terminal.blockComment_keeps after hwhole
    rw [Terminal.blockComment_of_next? hnext] at hkeep
    exact hnested (Option.some.inj hkeep).symm
  have hblanked : Token.blanked ⟨.blockComment, String.ofList comment, here, here.after comment⟩ =
      comment.map Comment.blankChar := by
    simp [Token.blanked, Token.isNested, hmarked]
  rw [scanFrom_token hstep]
  rwa [hblanked] at hskip

/-- Overwriting a nested comment behind a settled stretch changes no other token. -/
theorem Settled.extends_blank {lexeme rest : List Char}
    (h : Settled here front (comment ++ after) tokens)
    (hnext : Terminal.next? (comment ++ after) = some (.blockComment, lexeme, rest))
    (hcomment : Terminal.nestedComment (comment ++ after) = some (comment, after))
    (hnested : (comment, after) ≠ (lexeme, rest)) :
    Extends [] (scanFrom here (front ++ (comment ++ after)))
      (scanFrom here (front ++ (comment.map Comment.blankChar ++ after))) := by
  have hblanks := Comment.forall_mem_map_blankChar comment
  generalize hwhole : comment ++ after = whole at h
  induction h with
  | nil here =>
    subst hwhole
    have hold := extends_nestedComment here hnext hcomment hnested
    have hnew := extends_blanks hblanks here after
    rw [Comment.after_map_blankChar] at hnew
    exact Extends.cancel (a := []) hold hnew
  | @cons here kind lexeme front rest tokens hnext' hnested' htail ih =>
    subst hwhole
    by_cases hspace : kind = .space → front ≠ []
    · have hnew := htail.next?_blank hcomment hnext' hspace
      have hkeep := fun hkind => Terminal.nestedComment_keeps
        (front ++ (comment.map Comment.blankChar ++ after)) (hnested' hkind)
      rw [List.append_assoc, List.append_assoc, scanFrom_token (step_of_next? hnext' hnested'),
        scanFrom_token (step_of_next? hnew hkeep)]
      exact (ih rfl).token
    · -- both texts go on alike behind the blanks before the comment
      obtain ⟨rfl, hfront⟩ := Classical.not_imp.1 hspace
      have hlexeme := Terminal.forall_mem_of_space (Terminal.space_of_next? hnext')
      have hagree := ih rfl
      rw [not_ne_iff.1 hfront, List.nil_append, List.nil_append] at hagree
      rw [not_ne_iff.1 hfront, List.append_nil]
      have hold := (extends_blanks hlexeme here (comment ++ after)).trans hagree
      rw [List.append_nil] at hold
      exact Extends.cancel (a := []) hold (extends_blanks hlexeme here _)

end

/-- A stretch is settled up to where a character starts no token or a comment is nested. -/
theorem exists_settled (here : Location) (text : List Char) :
    ∃ front rest tokens, text = front ++ rest ∧ Settled here front rest tokens ∧
      ∀ kind lexeme after, Terminal.next? rest = some (kind, lexeme, after) →
        kind = .blockComment ∧ Terminal.nestedComment rest ≠ some (lexeme, after) := by
  fun_induction Scan.scanFrom here text with
  | case1 here text h => exact ⟨[], text, [], rfl, .nil _ _, by simp [h]⟩
  | case2 here text kind lexeme rest h _ stop tail ih =>
    by_cases hnested : kind = .blockComment → Terminal.nestedComment text = some (lexeme, rest)
    · obtain ⟨front, rest, tokens, rfl, hsettled, hparts⟩ := ih
      obtain ⟨rfl, _⟩ := Terminal.next?_sound h
      exact ⟨lexeme ++ front, rest, _, by simp, .cons h hnested hsettled, hparts⟩
    · refine ⟨[], text, [], rfl, .nil _ _, fun kind' lexeme' after h' => ?_⟩
      rw [h] at h'
      cases h'
      exact Classical.not_imp.1 hnested

end NestingScan
end LuaBindings
