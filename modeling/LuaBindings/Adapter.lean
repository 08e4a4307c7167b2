import LuaBindings.Adapter.Setup
import LuaBindings.CodeWriter
import LuaBindings.Signature.Classification
import LuaBindings.TokenTree.Renaming

/-!
# Adapters

The closure that makes a method callable: its inputs, the statements that set up the
arguments, and the rows of the method's body. Where there is a receiver, the body is
written with the receiver keyword renamed to the closure's own binding of it.
-/

set_option autoImplicit false

namespace LuaBindings

structure Closure where
  context : String
  receiver : Option String
  /-- The binding of the argument pack; none where there are no arguments. -/
  pack : Option String
  isAsync : Bool
  returnType : String
  setup : List String
  body : List TokenTree
  deriving Repr

namespace Closure

def inputs (c : Closure) : List String :=
  [c.context] ++ c.receiver.toList ++ [c.pack.getD "()"]

def header (c : Closure) : String :=
  let inputs := String.intercalate ", " c.inputs
  if c.isAsync then s!"|{inputs}| async move \x7b"
  else s!"|{inputs}| -> {c.returnType} \x7b"

def statements (c : Closure) : List String := c.setup ++ Layout.lines c.body

def lines (c : Closure) (indentation : String) : List String :=
  c.header :: c.statements.map (indentation ++ ·) ++ ["\x7d"]

end Closure

structure PreparedMethod where
  signature : Signature
  target : RuntimeTarget
  deriving Repr

namespace PreparedMethod

/-- The name under which an adapter binds the context where no parameter does. -/
def contextBinding : String := "__lua_ctx"

def ofMethod (target : RuntimeTarget) (method : Method) : Except Fault PreparedMethod := do
  return ⟨← Signature.ofMethod target method, target⟩

def method (m : PreparedMethod) : Method := m.signature.method

def isSkipped (m : PreparedMethod) : Bool := m.signature.options.skip

def contextLifetime? (m : PreparedMethod) : Option String :=
  m.signature.context.map ContextBinding.lifetime

def returnType (m : PreparedMethod) : String :=
  let inner := (m.method.returnType.map RustType.text).getD "()"
  s!"{m.target.resultType}<{inner}>"

def body (m : PreparedMethod) : List TokenTree :=
  if m.signature.hasReceiver then Renaming.trees Renaming.receiver m.method.body.inner
  else m.method.body.inner

def closure (m : PreparedMethod) (convention : CallConvention) : Closure :=
  let context := (m.signature.context.map ContextBinding.name).getD contextBinding
  let setup := Adapter.setup m.target convention context m.signature
  { context := context
    receiver := if m.signature.hasReceiver then some Renaming.receiverBinding else none
    pack := if m.signature.args.isEmpty then none else some Adapter.packBinding
    isAsync := m.method.isAsync
    returnType := m.returnType
    setup := setup.map (Adapter.SetupStatement.text m.target)
    body := m.body }

end PreparedMethod
end LuaBindings
