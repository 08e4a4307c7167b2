import LuaBindings.Adapter

/-!
# Interfaces

An interface is a marked impl block whose methods are all classified. Methods that
are to be skipped are left out. The others that take the context name it by one
and the same lifetime. All that is wrong with a block is reported together: its own
options first, then its methods in their order.
-/

set_option autoImplicit false

namespace LuaBindings

structure Interface where
  impl : ImplBlock
  options : InterfaceOptions
  methods : List PreparedMethod
  contextLifetime : Option String
  target : RuntimeTarget
  deriving Repr

namespace Fault

/-- Sets diagnostics apart from a value. Any other fault stays one. -/
def split {α : Type} : Except Fault α → Except Fault (Except Failure α)
  | .ok a => .ok (.ok a)
  | .error (.diagnosed f) => .ok (.error f)
  | .error .codePoint => .error .codePoint

def collect {α β : Type} (f : α → Except Fault β) : List α → Except Fault (List β × List Failure)
  | [] => .ok ([], [])
  | a :: rest => do
    let result ← split (f a)
    let (values, failures) ← collect f rest
    match result with
    | .ok b => return (b :: values, failures)
    | .error failure => return (values, failure :: failures)

def refuse {α : Type} (failures : List Failure) (value : α) : Except Fault α :=
  ofExcept (Failure.refuse failures value)

end Fault

structure PreparedMethods where
  methods : List PreparedMethod
  failures : List Failure
  contextLifetime : Option String

namespace PreparedMethods

/-- Prepares methods one after the other. The first lifetime of the context holds for
all that come after it. -/
def ofMethods (target : RuntimeTarget) (lifetime : Option String) :
    List Method → Except Fault PreparedMethods
  | [] => .ok ⟨[], [], lifetime⟩
  | method :: rest => do
    match ← Fault.split (PreparedMethod.ofMethod target method) with
    | .error f =>
      let more ← ofMethods target lifetime rest
      return { more with failures := f :: more.failures }
    | .ok m =>
      if m.isSkipped then ofMethods target lifetime rest
      else
        match m.contextLifetime?, lifetime with
        | some own, some shared =>
          let more ← ofMethods target (some shared) rest
          if own = shared then return { more with methods := m :: more.methods }
          else
            let f := Failure.atPlace method.place .contextLifetimesDiffer
            return { more with failures := f :: more.failures }
        | own, shared =>
          let more ← ofMethods target (own.or shared) rest
          return { more with methods := m :: more.methods }

end PreparedMethods

namespace Interface

def ofImpl (target : RuntimeTarget) (impl : ImplBlock) : Except Fault Interface := do
  let options ← Fault.split (InterfaceOptions.ofArguments impl.markerArgs)
  let prepared ← PreparedMethods.ofMethods target none impl.methods
  let (options, failures) := match options with
    | .ok options => (options, prepared.failures)
    | .error f => (InterfaceOptions.default, f :: prepared.failures)
  Fault.refuse failures ⟨impl, options, prepared.methods, prepared.contextLifetime, target⟩

def selfType (i : Interface) : String := i.impl.selfType.text

def generics (i : Interface) : String := Layout.inline i.impl.generics

def whereClause (i : Interface) : String :=
  if i.impl.whereClause.isEmpty then "" else " " ++ Layout.inline i.impl.whereClause

/-- The name of the published table: the one in the options, or that of the type. -/
def luaName? (i : Interface) : Option String :=
  i.options.luaName.or i.impl.selfType.baseName?

/-- The name of the class in the stubs. A type without a name is written as it is. -/
def className (i : Interface) : String :=
  match i.luaName? with
  | some name => if name.isEmpty then i.selfType else name
  | none => i.selfType

def statics (i : Interface) : List PreparedMethod :=
  i.methods.filter fun m => !m.signature.hasReceiver

end Interface
end LuaBindings
