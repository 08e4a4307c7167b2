import LuaBindings.TokenTree

/-!
# Laying out tokens

On one line, tokens that touch in the source touch, and all others stand one
space apart. On several rows, the source's line breaks between tokens stay, and
every row keeps its column relative to the leftmost row.
-/

set_option autoImplicit false

namespace LuaBindings

/-- A text to lay out, with the offsets at which it stood, as far as they are known. -/
structure Piece where
  text : String
  start : Option Int
  stop : Option Int
  deriving DecidableEq, Repr

namespace Piece

/-- Whether a space goes between two neighbours. Where an offset is unknown, it does. -/
def spaced (previous next : Piece) : Bool :=
  match previous.stop, next.start with
  | some stop, some start => stop < start
  | _, _ => true

def spread : List Piece → List String
  | [] => []
  | [p] => [p.text]
  | p :: q :: rest =>
    if p.spaced q then p.text :: " " :: spread (q :: rest) else p.text :: spread (q :: rest)

def inline (pieces : List Piece) : String := String.join (spread pieces)

end Piece

namespace Layout

def piece (t : Token) : Piece := ⟨t.text, some t.start.offset, some t.stop.offset⟩

def inlineTokens (tokens : List Token) : String := Piece.inline (tokens.map piece)

def inline (trees : List TokenTree) : String := inlineTokens (TokenTree.flatten trees)

/-- Puts a token in front of the first row, or in a row of its own. -/
def addToRows (t : Token) : List (List Token) → List (List Token)
  | [] => [[t]]
  | [] :: rows => [t] :: rows
  | (u :: row) :: rows =>
    if t.stop.line < u.start.line then [t] :: (u :: row) :: rows else (t :: u :: row) :: rows

/-- A token starts a row if it stands on a later line than the one where the token
before it ends. -/
def rows : List Token → List (List Token)
  | [] => []
  | t :: rest => addToRows t (rows rest)

def column (row : List Token) : Nat :=
  match row with
  | [] => 0
  | t :: _ => t.start.column

def leastColumn : List (List Token) → Nat
  | [] => 0
  | [row] => column row
  | row :: rest => min (column row) (leastColumn rest)

def lines (trees : List TokenTree) : List String :=
  let rows := rows (TokenTree.flatten trees)
  let least := leastColumn rows
  rows.map fun row =>
    String.ofList (List.replicate (column row - least) ' ') ++ inlineTokens row

end Layout
end LuaBindings
