import LuaBindings.Declaration.ImplBlock
import LuaBindings.Proofs.RustType.Marks

/-!
# The syntax of impl bodies

The items of an impl block, built from their tokens: methods, and other items that end
at a semicolon. A piece of syntax has the trees it is written with, and a method what
is to be read of it.
-/

set_option autoImplicit false

namespace LuaBindings

open TokenTree (maybe Balanced Whole)

/-! ### Lists with commas -/

/-- Some things with commas between them; a comma may follow the last. -/
inductive CommaList (α : Type) where
  | nil
  | last (a : α)
  | cons (a : α) (comma : Token.Mark ",") (rest : CommaList α)

namespace CommaList

variable {α : Type}

def toList : CommaList α → List α
  | nil => []
  | last a => [a]
  | cons a _ rest => a :: rest.toList

def trees (f : α → List TokenTree) : CommaList α → List TokenTree
  | nil => []
  | last a => f a
  | cons a comma rest => f a ++ .token comma.1 :: rest.trees f

end CommaList

/-! ### Attributes, visibility, qualifiers -/

structure AttributeSyntax where
  hash : Token.Mark "#"
  opener : Token
  inner : List TokenTree
  closer : Token

namespace AttributeSyntax

def brackets (a : AttributeSyntax) : Group := ⟨.bracket, a.opener, a.inner, a.closer⟩

def trees (a : AttributeSyntax) : List TokenTree := [.token a.hash.1, a.brackets.tree]

def value (a : AttributeSyntax) : Attribute := .ofBrackets a.hash.1 a.brackets

end AttributeSyntax

inductive VisibilitySyntax where
  | inherited
  | pub (word : Token.Word "pub")
  | restricted (word : Token.Word "pub") (opener : Token) (inner : List TokenTree)
    (closer : Token)

def VisibilitySyntax.trees : VisibilitySyntax → List TokenTree
  | inherited => []
  | pub word => [.token word.1]
  | restricted word opener inner closer => [.token word.1, .group .paren opener inner closer]

/-- A word that may stand before `fn`, with the string behind it if there is one. -/
structure QualifierSyntax where
  word : { t : Token // t.kind = .ident ∧ t.text ∈ Method.qualifiers }
  abi : Option { t : Token // t.kind.isString = true }

def QualifierSyntax.trees (q : QualifierSyntax) : List TokenTree :=
  .token q.word.1 :: maybe q.abi

/-! ### Types in declarations -/

structure ReadableType where
  trees : List TokenTree
  type : RustType
  reads : RustType.ofTrees trees none = .ok type

/-- A type among others: it ends at the next comma outside of angle brackets. -/
structure ListedType extends ReadableType where
  whole : Whole trees

/-! ### Receivers and parameters -/

inductive ReceiverSyntax where
  | value (mutWord : Option (Token.Word "mut")) (self : Token.Word "self")
  | reference (amp : Token.Mark "&") (lifetime : Option (Token.OfKind .lifetime))
    (mutWord : Option (Token.Word "mut")) (self : Token.Word "self")
  | typed (mutWord : Option (Token.Word "mut")) (self : Token.Word "self")
    (colon : Token.Mark ":") (type : ListedType)

namespace ReceiverSyntax

def trees : ReceiverSyntax → List TokenTree
  | value mutWord self => maybe mutWord ++ [.token self.1]
  | reference amp lifetime mutWord self =>
    .token amp.1 :: (maybe lifetime ++ (maybe mutWord ++ [.token self.1]))
  | typed mutWord self colon type =>
    maybe mutWord ++ .token self.1 :: .token colon.1 :: type.trees

def receiver : ReceiverSyntax → Receiver
  | value mutWord _ => ⟨false, mutWord.isSome, none⟩
  | reference _ lifetime mutWord _ => ⟨true, mutWord.isSome, lifetime.map fun t => t.1.text⟩
  | typed mutWord _ _ type =>
    match type.type with
    | .reference _ lifetime isMut _ => ⟨true, isMut, lifetime⟩
    | _ => ⟨false, mutWord.isSome, none⟩

end ReceiverSyntax

def BeginsWithSelf : List TokenTree → Prop
  | [] => False
  | [tree] => tree.isIdent "self" = true
  | tree :: next :: _ =>
    tree.isIdent "self" = true ∨ tree.isIdent "mut" = true ∧ next.isIdent "self" = true

structure ParameterSyntax where
  attributes : List AttributeSyntax
  first : TokenTree
  others : List TokenTree
  colon : Token.Mark ":"
  type : ListedType
  unmarked : ∀ tree ∈ first :: others, ∀ text ∈ [":", ",", "<", ">", "#"],
    tree.isPunct text = false
  notSelf : ¬BeginsWithSelf (first :: others)

namespace ParameterSyntax

def trees (p : ParameterSyntax) : List TokenTree :=
  p.attributes.flatMap AttributeSyntax.trees ++
    (p.first :: p.others ++ .token p.colon.1 :: p.type.trees)

def parameter (p : ParameterSyntax) : Parameter :=
  ⟨p.first :: p.others, p.type.type, p.attributes.map AttributeSyntax.value, p.first.start⟩

end ParameterSyntax

/-- The contents of the parentheses: parameters, of which a receiver may be the first. -/
inductive ParametersSyntax where
  | free (params : CommaList ParameterSyntax)
  | receiver (attributes : List AttributeSyntax) (self : ReceiverSyntax)
  | method (attributes : List AttributeSyntax) (self : ReceiverSyntax) (comma : Token.Mark ",")
    (params : CommaList ParameterSyntax)

namespace ParametersSyntax

def trees : ParametersSyntax → List TokenTree
  | free params => params.trees ParameterSyntax.trees
  | receiver attributes self => attributes.flatMap AttributeSyntax.trees ++ self.trees
  | method attributes self comma params =>
    attributes.flatMap AttributeSyntax.trees ++ self.trees ++
      .token comma.1 :: params.trees ParameterSyntax.trees

def receiver? : ParametersSyntax → Option Receiver
  | free _ => none
  | receiver _ self => some self.receiver
  | method _ self _ _ => some self.receiver

def params : ParametersSyntax → List Parameter
  | free params => params.toList.map ParameterSyntax.parameter
  | receiver .. => []
  | method _ _ _ params => params.toList.map ParameterSyntax.parameter

end ParametersSyntax

/-! ### Methods -/

structure GenericsSyntax where
  opening : Token.Mark "<"
  params : CommaList { xs : List TokenTree // Whole xs }
  closing : Token.Mark ">"

namespace GenericsSyntax

def trees (g : GenericsSyntax) : List TokenTree :=
  .token g.opening.1 :: (g.params.trees Subtype.val ++ [.token g.closing.1])

def lifetime? : List TokenTree → Option String
  | .token t :: _ => if t.kind = .lifetime then some t.text else none
  | _ => none

def lifetimes (g : GenericsSyntax) : List String :=
  g.params.toList.filterMap fun xs => lifetime? xs.1

end GenericsSyntax

structure ReturnSyntax where
  arrow : Token.Mark "->"
  type : ReadableType
  inside : ∀ tree ∈ type.trees,
    tree.isGroup .brace = false ∧ tree.isIdent "where" = false ∧ tree.isPunct ";" = false

def ReturnSyntax.trees (r : ReturnSyntax) : List TokenTree := .token r.arrow.1 :: r.type.trees

structure ClauseSyntax where
  word : Token.Word "where"
  predicates : List TokenTree
  inside : ∀ tree ∈ predicates, tree.isGroup .brace = false ∧ tree.isPunct ";" = false

def ClauseSyntax.trees (c : ClauseSyntax) : List TokenTree := .token c.word.1 :: c.predicates

structure MethodSyntax where
  attributes : List AttributeSyntax
  visibility : VisibilitySyntax
  qualifiers : List QualifierSyntax
  fn : Token.Word "fn"
  name : Token.OfKind .ident
  generics : Option GenericsSyntax
  opener : Token
  params : ParametersSyntax
  closer : Token
  returns : Option ReturnSyntax
  clause : Option ClauseSyntax
  bodyOpener : Token
  body : List TokenTree
  bodyCloser : Token

namespace MethodSyntax

def genericTrees (m : MethodSyntax) : List TokenTree :=
  (m.generics.map GenericsSyntax.trees).getD []

def bodyGroup (m : MethodSyntax) : Group := ⟨.brace, m.bodyOpener, m.body, m.bodyCloser⟩

def returnTrees (m : MethodSyntax) : List TokenTree :=
  (m.returns.map ReturnSyntax.trees).getD []

def clauseTrees (m : MethodSyntax) : List TokenTree :=
  (m.clause.map ClauseSyntax.trees).getD []

def core (m : MethodSyntax) : List TokenTree :=
  m.qualifiers.flatMap QualifierSyntax.trees ++ .token m.fn.1 :: .token m.name.1 ::
    (m.genericTrees ++ .group .paren m.opener m.params.trees m.closer ::
      (m.returnTrees ++ (m.clauseTrees ++ [m.bodyGroup.tree])))

def trees (m : MethodSyntax) : List TokenTree :=
  m.attributes.flatMap AttributeSyntax.trees ++ (m.visibility.trees ++ m.core)

def method (m : MethodSyntax) : Method where
  name := m.name.1.text
  isAsync := m.qualifiers.any (·.word.1.text == "async")
  receiver := m.params.receiver?
  params := m.params.params
  generics := m.genericTrees
  lifetimes := (m.generics.map GenericsSyntax.lifetimes).getD []
  returnType := m.returns.map (·.type.type)
  body := m.bodyGroup
  attributes := m.attributes.map AttributeSyntax.value
  place := m.fn.1.start

end MethodSyntax

/-! ### Items -/

/-- Trees that are written like the front of a method, up to `fn`. -/
def BeginsLikeFunction (trees : List TokenTree) : Prop :=
  ∃ (attributes : List AttributeSyntax) (visibility : VisibilitySyntax)
    (qualifiers : List QualifierSyntax) (fn : Token.Word "fn") (rest : List TokenTree),
    trees = attributes.flatMap AttributeSyntax.trees ++ (visibility.trees ++
      (qualifiers.flatMap QualifierSyntax.trees ++ .token fn.1 :: rest))

/-- An item that is no method and ends at a semicolon. No macro call with braces is in it. -/
structure OtherSyntax where
  front : List TokenTree
  semicolon : Token.Mark ";"
  notFunction : ¬BeginsLikeFunction front
  inside : ∀ tree ∈ front, tree.isPunct ";" = false
  noMacro : front.IsChain fun a b => ¬(a.isPunct "!" = true ∧ b.isGroup .brace = true)

def OtherSyntax.trees (o : OtherSyntax) : List TokenTree := o.front ++ [.token o.semicolon.1]

inductive ItemSyntax where
  | method (m : MethodSyntax)
  | other (o : OtherSyntax)

namespace ItemSyntax

def trees : ItemSyntax → List TokenTree
  | method m => m.trees
  | other o => o.trees

def method? : ItemSyntax → Option Method
  | method m => some m.method
  | other _ => none

def other? : ItemSyntax → Option (List TokenTree)
  | method _ => none
  | other o => some o.trees

end ItemSyntax
end LuaBindings
