import LuaBindings.Annotator
import LuaBindings.Interface
import LuaBindings.Text.Identifier

/-!
# Stubs

A stub describes the classes of a file to an editor: for every interface a class, a
call for every constructor, and a function for every other method. Methods whose
names begin with two underscores are implied by the class.
-/

set_option autoImplicit false

namespace LuaBindings.Stub

def luaKeywords : List String :=
  ["and", "break", "do", "else", "elseif", "end", "false", "for", "function", "goto", "if", "in",
    "local", "nil", "not", "or", "repeat", "return", "then", "true", "until", "while"]

structure TypedName where
  name : String
  luaType : String
  deriving DecidableEq, Repr

/-- A parameter that is called like a keyword has an underscore behind its name. -/
def parameterName (name : String) : String :=
  if luaKeywords.contains name then name ++ "_" else name

def parameters (a : Annotator) (className : String) (m : PreparedMethod) : List TypedName :=
  m.signature.args.map fun arg =>
    ⟨parameterName arg.name, a.ofType (some className) arg.passing.type⟩

/-- The annotations of what a method returns; a tuple is several values. -/
def returns (a : Annotator) (className : String) (m : PreparedMethod) : List String :=
  match m.method.returnType with
  | none => []
  | some (.tuple _ elems) => elems.map (a.ofType (some className))
  | some t => [a.ofType (some className) t]

def commaText (texts : List String) : String := String.intercalate ", " texts

/-- An optional parameter has its question mark behind its name. -/
def parameterLine (p : TypedName) : String :=
  if Annotator.endsOptional p.luaType then
    let luaType := String.ofList p.luaType.toList.dropLast
    s!"---@param {p.name}? {luaType}"
  else s!"---@param {p.name} {p.luaType}"

def overloadLine (a : Annotator) (className : String) (m : PreparedMethod) : String :=
  let params := (parameters a className m).map fun p => s!"{p.name}: {p.luaType}"
  let returns := returns a className m
  let result := if returns.isEmpty then "nil" else commaText returns
  s!"---@overload fun({commaText params}): {result}"

def isPlainName (name : String) : Bool :=
  !luaKeywords.contains name && Text.isIdentifier name

/-- The statement that stands for a method. With a receiver, or with arguments behind a
leading table, it is called with a colon. -/
def functionLine (className : String) (m : PreparedMethod) (params : List String) : String :=
  let name := m.signature.luaName
  let isColonCall := m.signature.hasReceiver || !params.isEmpty
  if !isPlainName name then
    let params := if isColonCall then "self" :: params else params
    s!"{className}[\"{name}\"] = function({commaText params}) end"
  else if isColonCall then
    s!"function {className}:{name}({commaText params}) end"
  else s!"function {className}.{name}() end"

def functionLines (a : Annotator) (className : String) (m : PreparedMethod) : List String :=
  let params := parameters a className m
  params.map parameterLine ++ (returns a className m).map ("---@return " ++ ·) ++
    [functionLine className m (params.map TypedName.name)]

def isConstructor (m : PreparedMethod) : Bool :=
  m.signature.luaName == callMetamethod && !m.signature.hasReceiver

def isImplied (m : PreparedMethod) : Bool :=
  ['_', '_'].isPrefixOf m.signature.luaName.toList

def interfaceLines (a : Annotator) (i : Interface) : List String :=
  let name := i.className
  let functions := i.methods.filter fun m => !isImplied m
  [s!"---@class {name}"] ++ (i.methods.filter isConstructor).map (overloadLine a name) ++
    [s!"{name} = \x7b\x7d"] ++ functions.flatMap fun m => "" :: functionLines a name m

def lines (a : Annotator) (moduleName : String) (interfaces : List Interface) : List String :=
  ["---@meta", s!"-- LuaCATS type definitions for {moduleName}",
    "-- Auto-generated, do not edit", ""] ++
    interfaces.flatMap fun i => interfaceLines a i ++ [""]

def text (a : Annotator) (moduleName : String) (interfaces : List Interface) : String :=
  String.intercalate "\n" (lines a moduleName interfaces)

end LuaBindings.Stub
