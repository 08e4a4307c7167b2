import LuaBindings.Declaration
import LuaBindings.Options
import LuaBindings.RuntimeTarget
import LuaBindings.Text.CamelCase

/-!
# Signatures

How a method is called from the other side: with a receiver or without one, with or
without the context, and how each of its parameters is passed. From this follow the
name it is published under and the way it is registered.
-/

set_option autoImplicit false

namespace LuaBindings

inductive Dispatch where
  | receiver (isMut : Bool)
  | free (isMut : Bool)
  deriving DecidableEq, Repr

structure ContextBinding where
  lifetime : String
  name : String
  deriving DecidableEq, Repr

/-- A parameter is passed by value, or as a handle to borrow its value from. -/
inductive Passing where
  | value (type : RustType)
  | handle (isMut : Bool) (pointee : RustType)
  deriving Repr

namespace Passing

def type : Passing → RustType
  | value t => t
  | handle _ t => t

def isHandle : Passing → Bool
  | value _ => false
  | handle .. => true

def ofType : RustType → Passing
  | .reference _ _ isMut elem => handle isMut elem
  | t => value t

end Passing

structure Argument where
  name : String
  passing : Passing
  isMutBinding : Bool
  deriving Repr

structure Signature where
  method : Method
  options : ItemOptions
  dispatch : Dispatch
  context : Option ContextBinding
  args : List Argument
  deriving Repr

def metamethods : List String :=
  ["__index", "__newindex", "__call", "__concat", "__unm", "__add", "__sub", "__mul", "__div",
    "__idiv", "__mod", "__pow", "__tostring", "__metatable", "__eq", "__lt", "__le", "__mode",
    "__len", "__iter"]

def isMetamethod (name : String) : Bool := metamethods.contains name

def callMetamethod : String := "__call"

/-- The name that a declaration without options is published under. -/
def publishedName (name : String) : String :=
  if isMetamethod name then name else Text.camelCase name

def registrationEntry (isAsync isMeta : Bool) (dispatch : Dispatch) : String :=
  let target := match dispatch with
    | .receiver isMut => "_method" ++ if isMut then "_mut" else ""
    | .free isMut => "_function" ++ if isMut then "_mut" else ""
  "add" ++ (if isAsync then "_async" else "") ++ (if isMeta then "_meta" else "") ++ target

namespace Signature

def name (s : Signature) : String := s.method.name

def isMeta (s : Signature) : Bool := isMetamethod s.name

def hasReceiver (s : Signature) : Bool :=
  match s.dispatch with
  | .receiver _ => true
  | .free _ => false

/-- The name that failures of the arguments are reported under. -/
def displayName (s : Signature) : String := Text.camelCase s.name

def luaName (s : Signature) : String :=
  if s.options.constructor then callMetamethod
  else s.options.rename.getD (publishedName s.name)

def registerWith (s : Signature) : String :=
  registrationEntry s.method.isAsync s.isMeta s.dispatch

end Signature
end LuaBindings
