/-!
# Runtime targets

The paths of the runtime that generated code calls into, and the types that are
taken for the runtime's context.
-/

set_option autoImplicit false

namespace LuaBindings

structure RuntimeTarget where
  crate : String
  argsPath : String
  refGuard : String
  refMutGuard : String
  contextTypes : List String
  deriving DecidableEq, Repr

namespace RuntimeTarget

def default : RuntimeTarget where
  crate := "mlua"
  argsPath := "crate::lua::FromArgs::from_arguments"
  refGuard := "std::cell::Ref"
  refMutGuard := "std::cell::RefMut"
  contextTypes := ["mlua::Lua", "Lua", "LuaContext", "Context"]

def item (t : RuntimeTarget) (name : String) : String := t.crate ++ "::" ++ name

def resultType (t : RuntimeTarget) : String := t.item "Result"

def errorType (t : RuntimeTarget) : String := t.item "Error"

def tableType (t : RuntimeTarget) : String := t.item "Table"

def userdataType (t : RuntimeTarget) : String := t.item "AnyUserData"

def luaType (t : RuntimeTarget) : String := t.item "Lua"

/-- Whether a path without generic arguments names the context. -/
def isContextType (t : RuntimeTarget) (path : String) : Bool := t.contextTypes.contains path

end RuntimeTarget
end LuaBindings
