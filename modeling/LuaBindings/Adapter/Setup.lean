import LuaBindings.Literal
import LuaBindings.Signature

/-!
# Setting up the arguments of an adapter

An adapter is called with a pack of arguments. One statement takes all of them out of
the pack; two more for every handle borrow its value and bind the parameter's name to
the borrowed value. All of this runs before the body, so the body never sees a
handle. Without parameters there is nothing to set up.
-/

set_option autoImplicit false

namespace LuaBindings

/-- How an adapter is called: on the receiver or by its own name, or through the
published table, which then arrives as the first argument. -/
inductive CallConvention where
  | receiver
  | table
  deriving DecidableEq, Repr

namespace Adapter

/-- The name under which an adapter binds the pack of arguments. -/
def packBinding : String := "__lua_cb_args"

def tableArgument : String := "self"

inductive Pattern where
  | wildcard
  | binding (isMut : Bool) (name : String)
  deriving DecidableEq, Repr

/-- One argument to take out of the pack: the pattern it is bound by, the type it is
converted to, and the name it is reported under. -/
structure Slot where
  pattern : Pattern
  type : String
  name : String
  deriving DecidableEq, Repr

inductive SetupStatement where
  | extract (slots : List Slot) (context displayName : String)
  | borrow (name pointee : String) (isMut : Bool)
  | rebind (name : String) (isMut isMutBinding : Bool)
  deriving DecidableEq, Repr

/-- The name of the guard that keeps a handle's value borrowed. -/
def guardName (name : String) : String := name ++ "_ud_ref"

/-- A handle is bound immutably here, for it is bound again later. -/
def pattern (a : Argument) : Pattern :=
  .binding (a.isMutBinding && !a.passing.isHandle) a.name

def slot (target : RuntimeTarget) (a : Argument) : Slot :=
  match a.passing with
  | .value type => ⟨pattern a, type.text, a.name⟩
  | .handle .. => ⟨pattern a, target.userdataType, a.name⟩

/-- The table comes first where the adapter is called through it, and is not bound. -/
def slots (target : RuntimeTarget) (convention : CallConvention) (args : List Argument) :
    List Slot :=
  match convention with
  | .receiver => args.map (slot target)
  | .table => ⟨.wildcard, target.tableType, tableArgument⟩ :: args.map (slot target)

def argumentNames (convention : CallConvention) (args : List Argument) : List String :=
  match convention with
  | .receiver => args.map Argument.name
  | .table => tableArgument :: args.map Argument.name

def borrowStatements (a : Argument) : List SetupStatement :=
  match a.passing with
  | .value _ => []
  | .handle isMut pointee =>
    [.borrow a.name pointee.text isMut, .rebind a.name isMut a.isMutBinding]

def setup (target : RuntimeTarget) (convention : CallConvention) (context : String)
    (s : Signature) : List SetupStatement :=
  if s.args.isEmpty then []
  else .extract (slots target convention s.args) context s.displayName ::
    s.args.flatMap borrowStatements

/-! ### Text -/

def tupleText : List String → String
  | [single] => s!"({single},)"
  | members => "(" ++ String.intercalate ", " members ++ ")"

def mutText (isMut : Bool) : String := if isMut then "mut " else ""

def Pattern.text : Pattern → String
  | wildcard => "_"
  | binding isMut name => mutText isMut ++ name

namespace SetupStatement

def text (target : RuntimeTarget) : SetupStatement → String
  | extract slots context displayName =>
    let patterns := tupleText (slots.map fun slot => slot.pattern.text)
    let types := tupleText (slots.map Slot.type)
    let names := String.intercalate ", " (slots.map fun slot => Literal.quote slot.name)
    s!"let {patterns}: {types} = {target.argsPath}({packBinding}, {context}, " ++
      s!"Some({Literal.quote displayName}), Some(&[{names}]))?;"
  | borrow name pointee true =>
    s!"let mut {guardName name}: {target.refMutGuard}<{pointee}> = {name}.borrow_mut()?;"
  | borrow name pointee false =>
    s!"let {guardName name}: {target.refGuard}<{pointee}> = {name}.borrow()?;"
  | rebind name isMut isMutBinding =>
    s!"let {mutText isMutBinding}{name} = &{mutText isMut}*{guardName name};"

end SetupStatement
end Adapter
end LuaBindings
