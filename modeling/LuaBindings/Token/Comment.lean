import LuaBindings.Diagnostic
import LuaBindings.Token.Lexer

/-!
# Nested block comments

The block comment terminal closes at the first end mark. A comment that holds
further comments is overwritten with blanks before the text is lexed for its
tokens, so that they keep their places. The text is lexed from the left; the
first comment whose nested end is not its own end is overwritten, and lexing
starts again over the changed text, past that comment.
-/

set_option autoImplicit false

namespace LuaBindings

namespace Terminal

/-- Through the end mark that closes the comment, with `depth` more comments open. -/
def throughNestedEnd : Nat → Recogniser
  | _, [] => none
  | depth, '/' :: '*' :: rest => prepend ['/', '*'] (throughNestedEnd (depth + 1) rest)
  | 0, '*' :: '/' :: rest => some (['*', '/'], rest)
  | depth + 1, '*' :: '/' :: rest => prepend ['*', '/'] (throughNestedEnd depth rest)
  | depth, c :: rest => prepend [c] (throughNestedEnd depth rest)

/-- A block comment up to the point where as many comments have closed as opened. -/
def nestedComment : Recogniser
  | '/' :: '*' :: rest => prepend ['/', '*'] (throughNestedEnd 0 rest)
  | _ => none

theorem throughNestedEnd_splits (depth : Nat) : Recogniser.Splits (throughNestedEnd depth) := by
  intro text
  fun_induction throughNestedEnd depth text with
  | case1 => simp
  | case3 => simp_all
  | case2 _ _ ih | case4 _ _ ih | case5 _ _ _ _ _ _ ih =>
    intro lexeme rest' h
    obtain ⟨tail, htail, rfl⟩ := prepend_eq_some h
    simp [ih _ _ htail]

theorem nestedComment_sound : Recogniser.Sound nestedComment := by
  intro text lexeme rest h
  unfold nestedComment at h
  split at h
  · exact sound_of_prepend (throughNestedEnd_splits 0) (by simp) (by simp) h
  · simp at h

end Terminal

namespace Comment

def blankChar (c : Char) : Char := if c = '\r' ∨ c = '\n' then c else ' '

def blankSpan (start stop : Nat) (text : List Char) : List Char :=
  text.mapIdx fun i c => if start ≤ i ∧ i < stop then blankChar c else c

/-- The offset after the nested end of a comment that starts at the given one. -/
def nestedStop? (text : List Char) (start : Nat) : Option Nat :=
  (Terminal.nestedComment (text.drop start)).map fun split => start + split.1.length

/-- The first block comment, no earlier than `start`, that does not end where its
nesting ends; with the offset where it does, if it ends at all. -/
def firstNested? (text : List Char) (start : Nat) (tokens : List Token) :
    Option (Token × Option Nat) :=
  (tokens.find? fun t => t.kind == .blockComment && start ≤ t.start.offset &&
    nestedStop? text t.start.offset != some t.stop.offset).map
      fun t => (t, nestedStop? text t.start.offset)

theorem blankSpan_length (start stop : Nat) (text : List Char) :
    (blankSpan start stop text).length = text.length :=
  List.length_mapIdx

theorem nestedStop?_bounds {text : List Char} {start stop : Nat}
    (h : nestedStop? text start = some stop) : start < stop ∧ stop ≤ text.length := by
  obtain ⟨⟨lexeme, rest⟩, hsplit, rfl⟩ := Option.map_eq_some_iff.1 h
  obtain ⟨happ, hne⟩ := Terminal.nestedComment_sound _ _ _ hsplit
  have hlen := congrArg List.length happ
  have hpos := List.length_pos_iff.2 hne
  simp only [List.length_append, List.length_drop] at hlen
  dsimp only
  omega

theorem firstNested?_bounds {text : List Char} {start stop : Nat} {tokens : List Token} {t : Token}
    (h : firstNested? text start tokens = some (t, some stop)) :
    start < stop ∧ stop ≤ text.length := by
  obtain ⟨u, hfind, heq⟩ := Option.map_eq_some_iff.1 h
  have hp := List.find?_some hfind
  simp only [Prod.mk.injEq] at heq
  have hstop := nestedStop?_bounds heq.2
  simp only [Bool.and_eq_true, decide_eq_true_eq] at hp
  omega

def blankFrom (start : Nat) (text : List Char) : Except Diagnostic (List Char) :=
  let scan := Scan.ofText text
  match h : firstNested? text start scan.tokens with
  | some (t, none) => .error (.atPlace t.start .unterminatedComment)
  | some (t, some stop) =>
    have : start < stop ∧ stop ≤ text.length := firstNested?_bounds h
    blankFrom stop (blankSpan t.start.offset stop text)
  | none =>
    match scan.stray with
    | some (c, place) => .error (.atPlace place (.untokenizable (.strayCharacter c) place))
    | none => .ok text
termination_by text.length - start
decreasing_by
  rw [blankSpan_length]
  omega

/-- The text with its nested comments overwritten, if it has tokens throughout. -/
def blankNested (text : List Char) : Except Diagnostic (List Char) := blankFrom 0 text

end Comment
end LuaBindings
