import LuaBindings.Proofs.Interface.PublishedKeys
import LuaBindings.Proofs.Stub.FunctionStub

/-!
# Stubs and adapters call alike

What a stub says a function is called with is what the adapter consumes: the receiver or the
table first, if there is one, and then the parameters in their order (`stub_matches_adapter`).
The adapters are those that stand in the emitted text (`Interface.Emits`).
-/

set_option autoImplicit false

namespace LuaBindings

namespace PreparedMethod

def convention (m : PreparedMethod) : CallConvention :=
  if m.signature.hasReceiver then .receiver else .table

def published (m : PreparedMethod) : Closure := m.closure m.convention

/-- The statements of the published adapter that come before the body. -/
def setup (m : PreparedMethod) : List Adapter.SetupStatement :=
  Adapter.setup m.target m.convention m.published.context m.signature

end PreparedMethod

namespace Adapter

def SetupStatement.taken : SetupStatement → List Slot
  | .extract slots _ _ => slots
  | .borrow .. => []
  | .rebind .. => []

end Adapter

namespace PreparedMethod

inductive Consumed where
  | receiver (binding : String)
  | member (slot : Adapter.Slot)
  deriving DecidableEq, Repr

/-- What comes before the parameters: the receiver, or the table where there are parameters. -/
def leading (m : PreparedMethod) : List Consumed :=
  if m.signature.hasReceiver then [.receiver Renaming.receiverBinding]
  else if m.signature.args.isEmpty then []
  else [.member ⟨.wildcard, m.target.tableType, Adapter.tableArgument⟩]

end PreparedMethod

namespace Interface

open CodeWriter (indented)

theorem infix_flatMap {α : Type} {f : α → List String} {a : α} {list : List α} (h : a ∈ list) :
    f a <:+: list.flatMap f := by
  obtain ⟨before, after, rfl⟩ := List.append_of_mem h
  exact ⟨before.flatMap f, after.flatMap f, by simp⟩

end Interface

namespace Stub

open PreparedMethod

theorem names_parameters (a : Annotator) (className : String) (m : PreparedMethod) :
    (parameters a className m).map TypedName.name =
      m.signature.args.map fun arg => parameterName arg.name := by
  rw [parameters, List.map_map]
  rfl

def argumentLine (a : Annotator) (className : String) (arg : Argument) : String :=
  parameterLine ⟨parameterName arg.name, a.ofType (some className) arg.passing.type⟩

def argumentText (a : Annotator) (className : String) (arg : Argument) : String :=
  s!"{parameterName arg.name}: {a.ofType (some className) arg.passing.type}"

def resultText (returns : List String) : String :=
  if returns.isEmpty then "nil" else commaText returns

theorem functionLines_eq (a : Annotator) (className : String) (m : PreparedMethod) :
    functionLines a className m = m.signature.args.map (argumentLine a className) ++
      (returns a className m).map ("---@return " ++ ·) ++ [(functionStub className m).text] := by
  rw [functionLines, FunctionStub.functionLine_eq, names_parameters]
  simp only [parameters, List.map_map]
  rfl

theorem overloadLine_eq (a : Annotator) (className : String) (m : PreparedMethod) :
    overloadLine a className m =
      "---@overload fun(" ++ commaText (m.signature.args.map (argumentText a className)) ++ "): " ++
        resultText (returns a className m) := by
  have hparams : (parameters a className m).map (fun p => s!"{p.name}: {p.luaType}") =
      m.signature.args.map (argumentText a className) := by
    rw [parameters, List.map_map]
    rfl
  unfold overloadLine resultText
  dsimp only
  rw [hparams]
  rfl

end Stub
end LuaBindings
