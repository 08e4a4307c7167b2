import LuaBindings.Token.Comment
import LuaBindings.TokenTree

/-!
# Trees of a text

The tokens of a text form trees when every closing delimiter closes the group
that was opened last, and every group is closed. The first closer that does not
fit is reported where it stands. A group that is still open at the end is reported
at the last token of the text.
-/

set_option autoImplicit false

namespace LuaBindings.TokenTree

/-- A group that waits for its end: its opening delimiter, and the trees before it
in the group around, last first. -/
structure OpenGroup where
  delimiter : Delimiter
  opener : Token
  before : List TokenTree

/-- Reads on with the groups open, innermost first, the trees of the innermost one
so far, last first, and the token read last. -/
def build (groups : List OpenGroup) (done : List TokenTree) (last : Location) :
    List Token → Except Diagnostic (List TokenTree)
  | [] =>
    if groups.isEmpty then .ok done.reverse
    else .error (.atPlace last (.untokenizable .openAtEnd last))
  | t :: rest =>
    match t.kind with
    | .opener d => build (⟨d, t, done⟩ :: groups) [] t.start rest
    | .closer d =>
      match groups with
      | g :: groups =>
        if g.delimiter = d then
          build groups (group d g.opener done.reverse t :: g.before) t.start rest
        else .error (.atPlace t.start (.untokenizable (.unexpectedCloser d) t.start))
      | [] => .error (.atPlace t.start (.untokenizable (.unexpectedCloser d) t.start))
    | _ => build groups (token t :: done) t.start rest

def ofTokens (tokens : List Token) : Except Diagnostic (List TokenTree) :=
  build [] [] .first tokens

def ofText (text : List Char) : Except Diagnostic (List TokenTree) :=
  match Comment.blankNested text with
  | .error d => .error d
  | .ok blanked => ofTokens (Scan.ofText blanked).significant

def ofSource (source : String) : Except Failure (List TokenTree) :=
  match ofText source.toList with
  | .error d => .error (.single d)
  | .ok trees => .ok trees

end LuaBindings.TokenTree
