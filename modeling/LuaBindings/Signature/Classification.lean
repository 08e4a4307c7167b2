import LuaBindings.Signature

/-!
# Classifying methods

A method is classified from its declaration and its options. The context is the
first parameter, by its tag or by its type. Of several things that are wrong the
first in the order of `classify` is reported. How types are annotated in a stub plays no part
here, so no annotator is passed on.
-/

set_option autoImplicit false

namespace LuaBindings

namespace Parameter

def fault {α : Type} (p : Parameter) (cause : Cause) : Except Fault α :=
  Fault.atPlace p.place cause

def isTaggedContext (p : Parameter) : Except Fault Bool := do
  return (← ParameterOptions.ofAttributes p.attributes).context

/-- The lifetime of a parameter's type, if it is a reference with one. -/
def referenceLifetime? (p : Parameter) : Option String :=
  match p.type with
  | .reference _ lifetime _ _ => lifetime
  | _ => none

/-- Whether the parameter refers, with a lifetime, to a type of the context. -/
def hasContextType (target : RuntimeTarget) (p : Parameter) : Bool :=
  match p.type with
  | .reference _ (some _) _ elem => elem.pathName?.any target.isContextType
  | _ => false

def requireIdent (p : Parameter) : Except Fault String :=
  match p.ident? with
  | some name => .ok name
  | none => p.fault .expectedIdentifier

/-- The context that the parameter is given, if it is given the context. -/
def context? (target : RuntimeTarget) (p : Parameter) : Except Fault (Option ContextBinding) := do
  let isTagged ← p.isTaggedContext
  match p.referenceLifetime? with
  | none => if isTagged then p.fault .contextWithoutLifetime else return none
  | some lifetime =>
    if isTagged || p.hasContextType target then return some ⟨lifetime, ← p.requireIdent⟩
    else return none

def argument (p : Parameter) : Except Fault Argument := do
  return ⟨← p.requireIdent, Passing.ofType p.type, p.isMutBinding⟩

def requireNoContext (p : Parameter) : Except Fault Unit := do
  if ← p.isTaggedContext then p.fault .contextNotFirst

end Parameter

namespace Signature

/-- The context among the parameters, and the parameters that are left. -/
def splitContext (target : RuntimeTarget) (params : List Parameter) :
    Except Fault (Option ContextBinding × List Parameter) :=
  match params with
  | [] => .ok (none, [])
  | first :: rest => do
    match ← first.context? target with
    | some context => return (some context, rest)
    | none => return (none, first :: rest)

/-- A method is called on its receiver unless its options say otherwise. -/
def dispatchOf (options : ItemOptions) (receiver : Option Receiver) : Dispatch :=
  match options.function, receiver with
  | some function, _ => .free function.isMut
  | none, some receiver => .receiver receiver.isMut
  | none, none => .free false

/-- The lifetime of the context is one that the method declares. -/
def lifetimeDeclared (method : Method) (context : Option ContextBinding) : Bool :=
  context.all fun c => method.lifetimes.contains c.lifetime

def classify (target : RuntimeTarget) (options : ItemOptions) (method : Method) :
    Except Fault Signature := do
  let (context, params) ← splitContext target method.params
  params.forM Parameter.requireNoContext
  let dispatch := dispatchOf options method.receiver
  if dispatch = .free true ∧ method.isAsync ∧ isMetamethod method.name then
    Fault.atPlace method.place .mutableAsyncMeta
  if !lifetimeDeclared method context then
    Fault.atPlace method.place .undeclaredLifetime
  let args ← params.mapM Parameter.argument
  return ⟨method, options, dispatch, context, args⟩

/-- The signature of a method by the options in its attributes. -/
def ofMethod (target : RuntimeTarget) (method : Method) : Except Fault Signature := do
  classify target (← ItemOptions.ofAttributes method.attributes) method

end Signature
end LuaBindings
