import LuaBindings.Attribute
import LuaBindings.RustType

/-!
# Declarations

What is read of an impl block: its head, its methods with their bodies, and the
other items, which are only kept apart.
-/

set_option autoImplicit false

namespace LuaBindings

/-- The receiver of a method. For a receiver by value, `isMut` tells of its binding. -/
structure Receiver where
  isReference : Bool
  isMut : Bool
  lifetime : Option String
  deriving DecidableEq, Repr

structure Parameter where
  pattern : List TokenTree
  type : RustType
  attributes : List Attribute
  place : Location
  deriving Repr

structure Method where
  name : String
  isAsync : Bool
  receiver : Option Receiver
  params : List Parameter
  generics : List TokenTree
  lifetimes : List String
  returnType : Option RustType
  body : Group
  attributes : List Attribute
  place : Location
  deriving Repr

structure ImplBlock where
  selfType : RustType
  generics : List TokenTree
  whereClause : List TokenTree
  /-- The arguments of the attribute that marks the block. -/
  markerArgs : Option Group
  /-- The other attributes of the block. -/
  attributes : List Attribute
  methods : List Method
  otherItems : List (List TokenTree)
  /-- Where the first attribute starts. -/
  start : Location
  /-- Where the body ends. -/
  stop : Location
  deriving Repr

namespace Parameter

def bindingModes : List String := ["mut", "ref"]

/-- The identifier that a pattern binds, if it is one behind nothing but binding modes. -/
def identOf : List TokenTree → Option String
  | [] => none
  | [tree] =>
    (tree.token? fun t => t.kind == .ident && !(["mut", "ref", "_"].contains t.text)).map Token.text
  | tree :: rest => if tree.isToken (bindingModes.contains ·.text) then identOf rest else none

def ident? (p : Parameter) : Option String := identOf p.pattern

def isMutBinding (p : Parameter) : Bool :=
  p.pattern.dropLast.any (·.isToken (·.text == "mut"))

end Parameter
end LuaBindings
