import LuaBindings.Diagnostic
import LuaBindings.TokenTree.Layout

/-!
# Loose trees

Trees put together by hand rather than read from a text. Their pieces may lack any
of their places or give places that no text has, and a group has no delimiters of
its own and may be empty.
-/

set_option autoImplicit false

namespace LuaBindings

structure LoosePiece extends Piece where
  line : Option Int
  column : Option Int
  deriving DecidableEq, Repr

inductive LooseTree where
  | piece (p : LoosePiece)
  | group (trees : List LooseTree)
  deriving Repr

namespace LooseTree

mutual

def pieces : LooseTree → List LoosePiece
  | piece p => [p]
  | group trees => flatten trees

def flatten : List LooseTree → List LoosePiece
  | [] => []
  | tree :: trees => tree.pieces ++ flatten trees

end

/-- The piece that the first members lead down to. An empty group on the way has none. -/
def first? : LooseTree → Option LoosePiece
  | piece p => some p
  | group [] => none
  | group (tree :: _) => tree.first?

def inline (trees : List LooseTree) : String :=
  Piece.inline ((flatten trees).map LoosePiece.toPiece)

def diagnostic (tree : LooseTree) (cause : Cause) : Diagnostic :=
  match tree.first? with
  | none => ⟨cause, none, none⟩
  | some p => ⟨cause, p.line, p.column⟩

end LooseTree
end LuaBindings
