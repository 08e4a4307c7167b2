import LuaBindings.NameTable
import LuaBindings.RustType

/-!
# Annotations of types

Every type has an annotation in the stubs. References and transparent wrappers do not
show; an optional type has a question mark, but never two; a type with no
counterpart is `any`. Fixed annotations come before everything else, and the names
of published classes after everything else.
-/

set_option autoImplicit false

namespace LuaBindings

structure Annotator where
  /-- The published class of a type's base name. -/
  classNames : NameTable
  /-- The annotations given for base names. -/
  fixed : NameTable
  deriving DecidableEq, Repr

namespace Annotator

def integerTypes : List String :=
  ["i8", "i16", "i32", "i64", "i128", "isize", "u8", "u16", "u32", "u64", "u128", "usize",
    "LuaInteger", "Integer"]

def numberTypes : List String := ["f32", "f64", "LuaNumber", "Number"]

def stringTypes : List String := ["String", "str", "LuaString", "Cow", "OsString", "PathBuf"]

def tableTypes : List String := ["Table", "LuaTable"]

def functionTypes : List String := ["Function", "LuaFunction"]

def optionalWrappers : List String := ["Option", "LuaFallible"]

def transparentWrappers : List String := ["Box", "Rc", "Arc", "Result", "LuaResult"]

def sequenceTypes : List String := ["Vec", "VecDeque", "LuaArray"]

def mapTypes : List String := ["HashMap", "BTreeMap"]

def occursIn (part : List Char) : List Char → Bool
  | [] => part.isEmpty
  | c :: rest => part.isPrefixOf (c :: rest) || occursIn part rest

def endsOptional (luaType : String) : Bool := luaType.toList.getLast? == some '?'

def optional (luaType : String) : String :=
  if endsOptional luaType then luaType else luaType ++ "?"

def required (luaType : String) : String :=
  String.ofList (luaType.toList.reverse.dropWhile (· == '?')).reverse

/-- The annotations of types that have no arguments to look at. -/
def basic? (name : String) : Option String :=
  if integerTypes.contains name then some "integer"
  else if numberTypes.contains name then some "number"
  else if name = "bool" then some "boolean"
  else if stringTypes.contains name then some "string"
  else if tableTypes.contains name then some "table"
  else if functionTypes.contains name then some "function"
  else none

/-- The annotations of wrappers and collections, from those of their arguments. -/
def applied? (name : String) (args : List String) : Option String :=
  match args with
  | [] => none
  | first :: rest =>
    if optionalWrappers.contains name then some (optional first)
    else if transparentWrappers.contains name then some first
    else if sequenceTypes.contains name then some (required first ++ "[]")
    else
      match rest with
      | [second] =>
        if mapTypes.contains name then some s!"table<{first}, {second}>" else none
      | _ => none

/-- The annotation of the type itself where it is named by `Self`. -/
def self? (selfName : Option String) (name : String) : Option String :=
  match selfName with
  | some selfName => if name = "Self" ∧ selfName ≠ "" then some selfName else none
  | none => none

/-- The annotation of a path by its last segment's name and the annotations of the
types among that segment's arguments. -/
def named (a : Annotator) (selfName : Option String) (name : String) (args : List String) :
    String :=
  ((a.fixed.get? name).or
    ((self? selfName name).or
      ((basic? name).or
        ((applied? name args).or
          (a.classNames.get? name))))).getD "any"

def ofOther (trees : List TokenTree) : String :=
  if trees.head?.any (·.isToken (·.text == "impl")) ∧
      occursIn ['F', 'n'] (Layout.inline trees).toList then "function"
  else "any"

mutual

def ofType (a : Annotator) (selfName : Option String) : RustType → String
  | .reference _ _ _ elem => ofType a selfName elem
  | .tuple _ elems => if elems.isEmpty then "nil" else "any"
  | .path _ _ _ last => ofSegment a selfName last
  | .other trees => ofOther trees

def ofSegment (a : Annotator) (selfName : Option String) : PathSegment → String
  | .mk name args => a.named selfName name (ofArgs a selfName args)

def ofArgs (a : Annotator) (selfName : Option String) : List TypeArg → List String
  | [] => []
  | .lifetime _ :: rest => ofArgs a selfName rest
  | .type t :: rest => ofType a selfName t :: ofArgs a selfName rest

end

def ofType? (a : Annotator) (selfName : Option String) : Option RustType → String
  | none => "nil"
  | some t => a.ofType selfName t

end Annotator
end LuaBindings
