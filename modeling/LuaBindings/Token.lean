import LuaBindings.Location

/-!
# Tokens

A token is a lexeme with its kind and the places where it starts and ends. White
space and comments are tokens too while a text is lexed; a reader of declarations
never sees them.
-/

set_option autoImplicit false

namespace LuaBindings

inductive Delimiter where
  | paren
  | bracket
  | brace
  deriving DecidableEq, Repr

namespace Delimiter

def openText : Delimiter → String
  | paren => "("
  | bracket => "["
  | brace => "\x7b"

def closeText : Delimiter → String
  | paren => ")"
  | bracket => "]"
  | brace => "\x7d"

end Delimiter

inductive TokenKind where
  | lineComment
  | blockComment
  | rawString
  | string
  | char
  | lifetime
  | ident
  | number
  | space
  | punct
  | opener (delimiter : Delimiter)
  | closer (delimiter : Delimiter)
  deriving DecidableEq, Repr

def TokenKind.isTrivia : TokenKind → Bool
  | .lineComment | .blockComment | .space => true
  | _ => false

def TokenKind.isString : TokenKind → Bool
  | .string | .rawString => true
  | _ => false

structure Token where
  kind : TokenKind
  text : String
  start : Location
  stop : Location
  deriving DecidableEq, Repr

namespace Token

def isIdent (t : Token) (name : String) : Bool :=
  t.kind == .ident && t.text == name

def isPunct (t : Token) (text : String) : Bool :=
  t.kind == .punct && t.text == text

end Token
end LuaBindings
