import LuaBindings.Cursor
import LuaBindings.Declaration
import LuaBindings.RustType.Reading

/-!
# Reading methods

A method is read from its qualifiers to the end of its body. Of the first
parameter it is first tried whether it is a receiver; a reference that is none is
read again as an ordinary parameter.
-/

set_option autoImplicit false

namespace LuaBindings

namespace Reader

def attributes : Reader (List Attribute) := fun c =>
  let attributes := (Attribute.leading c.rest).1
  .ok attributes (c.skip (2 * attributes.length))

def typeOfRest (anchor : Location) : Reader RustType := do
  ofExcept (RustType.ofTrees (← rest) (some anchor))

def whenAtEnd {α : Type} (value : α) : Reader (Option α) := fun c =>
  .ok (if c.atEnd then some value else none) c

def referenceReceiver : Reader (Option Receiver) := do
  let lifetime ← eat (·.kind == .lifetime)
  let isMut ← eatWord "mut"
  if ← eatWord "self" then
    whenAtEnd ⟨true, isMut, lifetime.map Token.text⟩
  else return none

def typedReceiver (isMut : Bool) : RustType → Receiver
  | .reference _ lifetime isMut _ => ⟨true, isMut, lifetime⟩
  | _ => ⟨false, isMut, none⟩

def receiver : Reader (Option Receiver) := do
  match ← eatPunct "&" with
  | some _ => referenceReceiver
  | none =>
    let isMut ← eatWord "mut"
    if ← eatWord "self" then
      match ← whenAtEnd (⟨false, isMut, none⟩ : Receiver) with
      | some receiver => return some receiver
      | none =>
        let colon ← expectPunct ":"
        return some (typedReceiver isMut (← typeOfRest colon.start))
    else return none

def lookahead {α : Type} (reader : Reader α) : Reader α := fun c =>
  match reader c with
  | .ok a _ => .ok a c
  | .error f _ => .error f c

def parameter (attributes : List Attribute) : Reader Parameter := do
  let pattern ← takeUntil (·.isPunct ":")
  match pattern with
  | [] => fail .expectedPattern
  | first :: _ =>
    let colon ← expectPunct ":"
    return ⟨pattern, ← typeOfRest colon.start, attributes, first.start⟩

def anyParameter : Reader Parameter := do
  parameter (← attributes)

/-- The first chunk of a parameter list: the receiver or a parameter. -/
def firstParameter : Reader (Receiver ⊕ Parameter) := do
  let attributes ← attributes
  match ← lookahead receiver with
  | some receiver => return .inl receiver
  | none => return .inr (← parameter attributes)

def runOn {α : Type} (reader : Reader α) (trees : List TokenTree) (anchor : Location) :
    Except Failure α :=
  match reader (Cursor.ofTrees trees (some anchor)) with
  | .ok a _ => .ok a
  | .error f _ => .error f

end Reader

namespace Method

/-- The receiver and the parameters in a group of parentheses. -/
def parametersOf (g : Group) : Except Failure (Option Receiver × List Parameter) := do
  match TokenTree.splitCommas g.inner with
  | [] => return (none, [])
  | first :: others =>
    let first ← Reader.firstParameter.runOn first g.opener.start
    let others ← others.mapM (Reader.anyParameter.runOn · g.opener.start)
    match first with
    | .inl receiver => return (some receiver, others)
    | .inr param => return (none, param :: others)

def qualifiers : List String := ["default", "const", "async", "unsafe", "extern"]

/-- Whether `fn` comes behind nothing but qualifiers. Each may have a string behind it. -/
def isAhead : Bool → List TokenTree → Bool
  | _, [] => false
  | afterQualifier, tree :: rest =>
    if tree.isIdent "fn" then true
    else if tree.isToken (fun t => t.kind == .ident && qualifiers.contains t.text) then
      isAhead true rest
    else if afterQualifier ∧ tree.isToken (·.kind.isString) then isAhead false rest
    else false

def endsReturnType (tree : TokenTree) : Bool :=
  tree.isGroup .brace || tree.isIdent "where" || tree.isPunct ";"

def endsClause (tree : TokenTree) : Bool := tree.isGroup .brace || tree.isPunct ";"

def returnTypeReader (anchor : Location) : Reader (Option RustType) := do
  match ← Reader.eatPunct "->" with
  | none => return none
  | some _ =>
    let trees ← Reader.takeUntil endsReturnType
    return some (← Reader.ofExcept (RustType.ofTrees trees (some anchor)))

def bodyReader : Reader Group := do
  let _ ← Reader.takeUntil endsClause
  if ← Reader.sees (·.isPunct ";") then Reader.fail .expectedBody
  else Reader.expectGroup .brace

def reader (attributes : List Attribute) : Reader Method := do
  let qualifiers ← Reader.takeUntil (·.isIdent "fn")
  let fn ← Reader.expectIdent (some "fn")
  let name ← Reader.expectIdent none
  let generics ← Reader.optionalAngleList
  let group ← Reader.expectGroup .paren
  let (receiver, params) ← Reader.ofExcept (parametersOf group)
  let returnType ← returnTypeReader name.start
  let body ← bodyReader
  return {
    name := name.text
    isAsync := qualifiers.any (·.isIdent "async")
    receiver := receiver
    params := params
    generics := generics
    lifetimes := TokenTree.genericLifetimes generics
    returnType := returnType
    body := body
    attributes := attributes
    place := fn.start }

end Method
end LuaBindings
