import LuaBindings.Proofs.TokenTree.Tokens
import LuaBindings.RustType.Reading

/-!
# The syntax of types

The types that are told apart, built from their tokens: references, paths with
angle lists, tuples and groups in brackets. A piece of syntax has the trees it is
written with and the type it stands for.
-/

set_option autoImplicit false

namespace LuaBindings

namespace RustType

open TokenTree (maybe)

mutual

inductive TypeSyntax where
  | reference (amp : Token.Mark "&") (lifetime : Option (Token.OfKind .lifetime))
    (mutWord : Option (Token.Word "mut")) (elem : TypeSyntax)
  | path (leading : Option (Token.Mark "::")) (segments : PathSyntax)
  | tuple (opener : Token) (elems : ElemsSyntax) (closer : Token)
  | brackets (opener : Token) (inner : List TokenTree) (closer : Token)

inductive PathSyntax where
  | last (segment : SegmentSyntax)
  | cons (segment : SegmentSyntax) (colons : Token.Mark "::") (rest : PathSyntax)

inductive SegmentSyntax where
  | plain (name : Token.OfKind .ident)
  | applied (name : Token.OfKind .ident) (turbofish : Option (Token.Mark "::"))
    (opening : Token.Mark "<") (args : ArgsSyntax) (closing : Token.Mark ">")

inductive ArgsSyntax where
  | nil
  | last (arg : ArgSyntax)
  | cons (arg : ArgSyntax) (comma : Token.Mark ",") (rest : ArgsSyntax)

inductive ArgSyntax where
  | lifetime (name : Token.OfKind .lifetime)
  | type (t : TypeSyntax)

inductive ElemsSyntax where
  | nil
  | last (elem : TypeSyntax)
  | cons (elem : TypeSyntax) (comma : Token.Mark ",") (rest : ElemsSyntax)

end

/-! ### The trees -/

mutual

def TypeSyntax.trees : TypeSyntax → List TokenTree
  | .reference amp lifetime mutWord elem =>
    .token amp.1 :: (maybe lifetime ++ (maybe mutWord ++ elem.trees))
  | .path leading segments => maybe leading ++ segments.trees
  | .tuple opener elems closer => [.group .paren opener elems.trees closer]
  | .brackets opener inner closer => [.group .bracket opener inner closer]

def PathSyntax.trees : PathSyntax → List TokenTree
  | .last segment => segment.trees
  | .cons segment colons rest => segment.trees ++ .token colons.1 :: rest.trees

def SegmentSyntax.trees : SegmentSyntax → List TokenTree
  | .plain name => [.token name.1]
  | .applied name turbofish opening args closing =>
    .token name.1 ::
      (maybe turbofish ++ .token opening.1 :: (args.trees ++ [.token closing.1]))

def ArgsSyntax.trees : ArgsSyntax → List TokenTree
  | .nil => []
  | .last arg => arg.trees
  | .cons arg comma rest => arg.trees ++ .token comma.1 :: rest.trees

def ArgSyntax.trees : ArgSyntax → List TokenTree
  | .lifetime name => [.token name.1]
  | .type t => t.trees

def ElemsSyntax.trees : ElemsSyntax → List TokenTree
  | .nil => []
  | .last elem => elem.trees
  | .cons elem comma rest => elem.trees ++ .token comma.1 :: rest.trees

end

/-! ### The types -/

mutual

def TypeSyntax.type : TypeSyntax → RustType
  | .reference amp lifetime mutWord elem =>
    .reference (TypeSyntax.reference amp lifetime mutWord elem).trees
      (lifetime.map fun t => t.1.text) mutWord.isSome elem.type
  | .path leading segments =>
    .path (TypeSyntax.path leading segments).trees leading.isSome segments.qualifiers
      segments.final
  | .tuple opener elems closer => .tuple (TypeSyntax.tuple opener elems closer).trees elems.types
  | .brackets opener inner closer => .other (TypeSyntax.brackets opener inner closer).trees

def PathSyntax.qualifiers : PathSyntax → List PathSegment
  | .last _ => []
  | .cons segment _ rest => segment.segment :: rest.qualifiers

def PathSyntax.final : PathSyntax → PathSegment
  | .last segment => segment.segment
  | .cons _ _ rest => rest.final

def SegmentSyntax.segment : SegmentSyntax → PathSegment
  | .plain name => .mk name.1.text []
  | .applied name _ _ args _ => .mk name.1.text args.args

def ArgsSyntax.args : ArgsSyntax → List TypeArg
  | .nil => []
  | .last arg => [arg.arg]
  | .cons arg _ rest => arg.arg :: rest.args

def ArgSyntax.arg : ArgSyntax → TypeArg
  | .lifetime name => .lifetime name.1.text
  | .type t => .type t.type

def ElemsSyntax.types : ElemsSyntax → List RustType
  | .nil => []
  | .last elem => [elem.type]
  | .cons elem _ rest => elem.type :: rest.types

end

/-! ### Names that are read otherwise -/

def SegmentSyntax.name : SegmentSyntax → Token
  | .plain name => name.1
  | .applied name .. => name.1

def PathSyntax.firstName : PathSyntax → Token
  | .last segment => segment.name
  | .cons segment .. => segment.name

def TypeSyntax.BeginsWithMut : TypeSyntax → Prop
  | .path none segments => segments.firstName.text = "mut"
  | _ => False

mutual

/-- No path begins with a word of the opaque types, and no path behind a shared
reference begins with the word of a mutable one. -/
def TypeSyntax.Readable : TypeSyntax → Prop
  | .reference _ _ mutWord elem => (mutWord = none → ¬elem.BeginsWithMut) ∧ elem.Readable
  | .path leading segments =>
    (leading = none → segments.firstName.text ∉ opaqueWords) ∧ segments.Readable
  | .tuple _ elems _ => elems.Readable
  | .brackets .. => True

def PathSyntax.Readable : PathSyntax → Prop
  | .last segment => segment.Readable
  | .cons segment _ rest => segment.Readable ∧ rest.Readable

def SegmentSyntax.Readable : SegmentSyntax → Prop
  | .plain _ => True
  | .applied _ _ _ args _ => args.Readable

def ArgsSyntax.Readable : ArgsSyntax → Prop
  | .nil => True
  | .last arg => arg.Readable
  | .cons arg _ rest => arg.Readable ∧ rest.Readable

def ArgSyntax.Readable : ArgSyntax → Prop
  | .lifetime _ => True
  | .type t => t.Readable

def ElemsSyntax.Readable : ElemsSyntax → Prop
  | .nil => True
  | .last elem => elem.Readable
  | .cons elem _ rest => elem.Readable ∧ rest.Readable

end

end RustType
end LuaBindings
