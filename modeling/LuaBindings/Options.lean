import LuaBindings.Attribute
import LuaBindings.Fault
import LuaBindings.Literal
import LuaBindings.Options.Entry

/-!
# Options

The options of a declaration, of a parameter and of an interface. Entries are taken
in order and the last one of a key decides; the first entry that is not valid fails
the whole list, and the list has been read in full before any entry is looked at.
-/

set_option autoImplicit false

namespace LuaBindings

namespace OptionEntry

/-- The name that an entry gives: an identifier or the value of a string. -/
def nameValue (e : OptionEntry) (cause : Cause) : Except Fault String :=
  match e with
  | bare name => Fault.atPlace name.start (.missingValue e.key)
  | single _ separator value =>
    match value.kind, value.tokens with
    | .ident, _ => .ok value.text
    | .literal, [t] =>
      if t.kind.isString then
        match Literal.decode t.text with
        | some name => .ok name
        | none => .error .codePoint
      else Fault.atPlace separator.start cause
    | _, _ => Fault.atPlace separator.start cause
  | list _ opener _ => Fault.atPlace opener.start cause

/-- An entry that only switches something on is given nothing. -/
def requireBare (e : OptionEntry) : Except Fault Unit :=
  match e.anchor? with
  | none => .ok ()
  | some anchor => Fault.atPlace anchor.start (.unexpectedValue e.key)

def unknown {α : Type} (e : OptionEntry) : Except Fault α :=
  Fault.atPlace e.name.start (.unknownOption e.key)

end OptionEntry

/-- That a declaration is published as a function without a receiver. -/
structure FunctionOptions where
  isMut : Bool
  deriving DecidableEq, Repr

structure ItemOptions where
  skip : Bool
  rename : Option String
  function : Option FunctionOptions
  constructor : Bool
  deriving DecidableEq, Repr

structure ParameterOptions where
  context : Bool
  deriving DecidableEq, Repr

structure InterfaceOptions where
  luaName : Option String
  deriving DecidableEq, Repr

/-- The path of the attribute that holds the options of declarations and parameters. -/
def Attribute.isOptions (a : Attribute) : Bool := a.path == ["lua"]

/-- The entries of an option attribute, which must have arguments. -/
def Attribute.entries (a : Attribute) : Except Fault (List OptionEntry) :=
  match a.args with
  | none => Fault.atPlace a.place .expectedArguments
  | some g => Fault.ofExcept (OptionEntry.ofArguments g)

namespace FunctionOptions

def apply (options : FunctionOptions) (e : OptionEntry) : Except Fault FunctionOptions :=
  if e.key = "mut" then do
    e.requireBare
    return { options with isMut := true }
  else e.unknown

def ofEntries (entries : List OptionEntry) : Except Fault FunctionOptions :=
  entries.foldlM apply ⟨false⟩

end FunctionOptions

namespace ItemOptions

def default : ItemOptions := ⟨false, none, none, false⟩

def functionOptions (e : OptionEntry) : Except Fault FunctionOptions :=
  match e with
  | .bare _ => .ok ⟨false⟩
  | .list _ _ entries => FunctionOptions.ofEntries entries
  | .single _ separator _ => Fault.atPlace separator.start .badFunctionOption

def apply (options : ItemOptions) (e : OptionEntry) : Except Fault ItemOptions :=
  if e.key = "function" then do
    return { options with function := some (← functionOptions e) }
  else if e.key = "skip" then do
    e.requireBare
    return { options with skip := true }
  else if e.key = "rename" then do
    return { options with rename := some (← e.nameValue .badRename) }
  else if e.key = "constructor" then do
    e.requireBare
    return { options with constructor := true }
  else e.unknown

def ofEntries (entries : List OptionEntry) : Except Fault ItemOptions :=
  entries.foldlM apply default

def ofAttributes (attributes : List Attribute) : Except Fault ItemOptions :=
  match attributes.find? Attribute.isOptions with
  | none => .ok default
  | some a => do ofEntries (← a.entries)

end ItemOptions

namespace ParameterOptions

def apply (options : ParameterOptions) (e : OptionEntry) : Except Fault ParameterOptions :=
  if e.key = "context" then do
    e.requireBare
    return { options with context := true }
  else e.unknown

def ofAttributes (attributes : List Attribute) : Except Fault ParameterOptions :=
  (attributes.filter Attribute.isOptions).foldlM
    (fun options a => do (← a.entries).foldlM apply options) ⟨false⟩

end ParameterOptions

namespace InterfaceOptions

def default : InterfaceOptions := ⟨none⟩

def apply (options : InterfaceOptions) (e : OptionEntry) : Except Fault InterfaceOptions :=
  if e.key = "lua_name" then do
    return { options with luaName := some (← e.nameValue .badInterfaceName) }
  else e.unknown

/-- Entries that cannot be read are reported as such, at the same place. -/
def readEntries (g : Group) : Except Failure (List OptionEntry) :=
  (OptionEntry.ofArguments g).mapError fun f =>
    .single { f.first with cause := .badInterfaceOptions f.first.cause }

def ofArguments (args : Option Group) : Except Fault InterfaceOptions :=
  match args with
  | none => .ok default
  | some g => do (← Fault.ofExcept (readEntries g)).foldlM apply default

end InterfaceOptions
end LuaBindings
