import LuaBindings.Diagnostic
import LuaBindings.Proofs.Token.CommentMarks
import LuaBindings.Token.Lexer

/-!
# Lexing with nested comments in one pass

The lexer of this module tries the terminals of the token grammar in their order, but a
block comment goes on to where its nesting ends, and a comment that never ends stops the
lexer. Texts and tokens are related step by step in `Cut`, which the facts about places
are proved over: the lexemes make up the text, and every place is what counting up to it
gives.
-/

set_option autoImplicit false

namespace LuaBindings

inductive LexStep where
  | stuck
  | unterminated
  | token (kind : TokenKind) (lexeme rest : List Char)
  deriving DecidableEq, Repr

/-- The tokens up to the end of a text, or up to the first place where lexing fails. -/
structure NestingScan where
  tokens : List Token
  fault : Option Diagnostic
  deriving Repr

namespace NestingScan

/-- The first terminal that takes something decides. A block comment is taken up to where
as many comments have closed as opened. -/
def step (text : List Char) : LexStep :=
  match Terminal.next? text with
  | none => .stuck
  | some (.blockComment, _, _) =>
    match Terminal.countedComment text with
    | none => .unterminated
    | some (lexeme, rest) => .token .blockComment lexeme rest
  | some (kind, lexeme, rest) => .token kind lexeme rest

theorem step_sound {text lexeme rest : List Char} {kind : TokenKind}
    (h : step text = .token kind lexeme rest) : lexeme ++ rest = text ∧ lexeme ≠ [] := by
  unfold step at h
  split at h
  · cases h
  · split at h
    · cases h
    · rename_i hcounted
      cases h
      rw [Terminal.countedComment_eq] at hcounted
      exact Terminal.nestedComment_sound _ _ _ hcounted
  · rename_i hnext
    cases h
    exact Terminal.next?_sound hnext

theorem step_rest_lt {text lexeme rest : List Char} {kind : TokenKind}
    (h : step text = .token kind lexeme rest) : rest.length < text.length := by
  obtain ⟨rfl, hne⟩ := step_sound h
  have := List.length_pos_iff.2 hne
  simp only [List.length_append]
  omega

def scanFrom (here : Location) (text : List Char) : NestingScan :=
  match h : step text with
  | .stuck => ⟨[], text.head?.map fun c => .atPlace here (.untokenizable (.strayCharacter c) here)⟩
  | .unterminated => ⟨[], some (.atPlace here .unterminatedComment)⟩
  | .token kind lexeme rest =>
    have : rest.length < text.length := step_rest_lt h
    let stop := here.after lexeme
    let tail := scanFrom stop rest
    ⟨⟨kind, String.ofList lexeme, here, stop⟩ :: tail.tokens, tail.fault⟩
termination_by text.length

def ofText (text : List Char) : NestingScan := scanFrom .first text

def significant (scan : NestingScan) : List Token :=
  scan.tokens.filter fun t => !t.kind.isTrivia

def outcome (scan : NestingScan) : Except Diagnostic (List Token) :=
  match scan.fault with
  | some d => .error d
  | none => .ok scan.significant

/-! ### One step at a time -/

theorem scanFrom_stuck {here : Location} {text : List Char} (h : step text = .stuck) :
    scanFrom here text =
      ⟨[], text.head?.map fun c => .atPlace here (.untokenizable (.strayCharacter c) here)⟩ := by
  rw [scanFrom]
  split <;> simp_all

theorem scanFrom_unterminated {here : Location} {text : List Char}
    (h : step text = .unterminated) :
    scanFrom here text = ⟨[], some (.atPlace here .unterminatedComment)⟩ := by
  rw [scanFrom]
  split <;> simp_all

theorem scanFrom_token {here : Location} {text lexeme rest : List Char} {kind : TokenKind}
    (h : step text = .token kind lexeme rest) :
    scanFrom here text =
      ⟨⟨kind, String.ofList lexeme, here, here.after lexeme⟩ ::
        (scanFrom (here.after lexeme) rest).tokens, (scanFrom (here.after lexeme) rest).fault⟩ := by
  rw [scanFrom]
  split <;> simp_all

/-- The tokens that a text is cut into from a place on, and the failure that ends them. -/
inductive Cut : Location → List Char → List Token → Option Diagnostic → Prop
  | stuck {here : Location} {text : List Char} : step text = .stuck →
    Cut here text []
      (text.head?.map fun c => .atPlace here (.untokenizable (.strayCharacter c) here))
  | unterminated {here : Location} {text : List Char} : step text = .unterminated →
    Cut here text [] (some (.atPlace here .unterminatedComment))
  | token {here : Location} {kind : TokenKind} {lexeme rest : List Char} {tokens : List Token}
    {fault : Option Diagnostic} : step (lexeme ++ rest) = .token kind lexeme rest →
    Cut (here.after lexeme) rest tokens fault →
    Cut here (lexeme ++ rest)
      (⟨kind, String.ofList lexeme, here, here.after lexeme⟩ :: tokens) fault

theorem cut_scanFrom (here : Location) (text : List Char) :
    Cut here text (scanFrom here text).tokens (scanFrom here text).fault := by
  fun_induction scanFrom here text with
  | case1 here text h => exact .stuck h
  | case2 here text h => exact .unterminated h
  | case3 here text kind lexeme rest h _ stop tail ih =>
    obtain ⟨rfl, _⟩ := step_sound h
    exact .token h ih

/-! ### What is read before a place -/

/-- The first characters of a text are whole tokens, with white space and comments around
them, and the others stand behind. -/
inductive Reads : List Char → List Char → Prop
  | nil (rest : List Char) : Reads [] rest
  | token {kind : TokenKind} {lexeme front rest : List Char} :
    step (lexeme ++ (front ++ rest)) = .token kind lexeme (front ++ rest) → Reads front rest →
    Reads (lexeme ++ front) rest

theorem Reads.append {front middle rest : List Char} (h : Reads front (middle ++ rest))
    (hmore : Reads middle rest) : Reads (front ++ middle) rest := by
  generalize hwhole : middle ++ rest = whole at h
  induction h with
  | nil => exact hmore
  | @token kind lexeme front _ hstep _ ih =>
    subst hwhole
    rw [← List.append_assoc front] at hstep
    rw [List.append_assoc]
    exact .token hstep (ih rfl)

end NestingScan
end LuaBindings
