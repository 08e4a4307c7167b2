import LuaBindings.Token.Terminal

/-!
# Lexing

A text is cut into tokens from left to right, white space and comments included.
The cut stops at the first character that no terminal takes. The lexemes in
order, and what is left from that character on, make up the text.
-/

set_option autoImplicit false

namespace LuaBindings

/-- The tokens up to the end of a text, or up to a character that starts none. -/
structure Scan where
  tokens : List Token
  stray : Option (Char × Location)
  deriving Repr

namespace Scan

def scanFrom (here : Location) (text : List Char) : Scan :=
  match h : Terminal.next? text with
  | none => ⟨[], text.head?.map fun c => (c, here)⟩
  | some (kind, lexeme, rest) =>
    have : rest.length < text.length := Terminal.next?_rest_lt h
    let stop := here.after lexeme
    let tail := scanFrom stop rest
    ⟨⟨kind, String.ofList lexeme, here, stop⟩ :: tail.tokens, tail.stray⟩
termination_by text.length

def ofText (text : List Char) : Scan := scanFrom .first text

def significant (scan : Scan) : List Token :=
  scan.tokens.filter fun t => !t.kind.isTrivia

end Scan
end LuaBindings
