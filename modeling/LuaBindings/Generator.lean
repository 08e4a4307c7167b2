import LuaBindings.Declaration.Search
import LuaBindings.Interface.Emission
import LuaBindings.Stub

/-!
# Generating the bindings of a source

A generator goes from source to source and remembers the published class of every
type it has met, so later stubs can name the classes of earlier sources. A source is
remembered once its interfaces are complete, whether or not it expands.
-/

set_option autoImplicit false

namespace LuaBindings

structure Generator where
  target : RuntimeTarget
  annotator : Annotator
  deriving Repr

namespace Generator

def fresh (target : RuntimeTarget) (fixed : NameTable) : Generator := ⟨target, ⟨[], fixed⟩⟩

/-- The interfaces of impl blocks, or all that is wrong with them. -/
def interfaces (target : RuntimeTarget) (impls : List ImplBlock) :
    Except Fault (List Interface) := do
  let (interfaces, failures) ← Fault.collect (Interface.ofImpl target) impls
  Fault.refuse failures interfaces

def recordClass (classNames : NameTable) (i : Interface) : NameTable :=
  match i.impl.selfType.baseName? with
  | some name => classNames.set name i.className
  | none => classNames

def record (g : Generator) (interfaces : List Interface) : Generator :=
  { g with annotator.classNames := interfaces.foldl recordClass g.annotator.classNames }

def read (g : Generator) (source : String) : Except Fault (List Interface) := do
  interfaces g.target (← Fault.ofExcept (ImplBlock.ofSource source ImplBlock.defaultMarker))

def slice (start stop : Nat) (text : List Char) : List Char := (text.drop start).take (stop - start)

/-- The text from an offset on with the impl blocks replaced by what is written for
them, and the failures to write it. -/
def spliceFrom (source : List Char) (position : Nat) :
    List Interface → List String × List Failure
  | [] => ([String.ofList (source.drop position)], [])
  | i :: rest =>
    let gap := String.ofList (slice position i.impl.start.offset source)
    let (parts, failures) := spliceFrom source i.impl.stop.offset rest
    match i.expansion with
    | .ok text => (gap :: text :: parts, failures)
    | .error f => (gap :: parts, f :: failures)

def inOrder (interfaces : List Interface) : List Interface :=
  interfaces.mergeSort fun a b => a.impl.start.offset ≤ b.impl.start.offset

/-- The source with every marked impl block replaced by its bindings. -/
def expand (source : String) (interfaces : List Interface) : Except Failure String :=
  let (parts, failures) := spliceFrom source.toList 0 (inOrder interfaces)
  Failure.refuse failures (String.join parts)

def stub (g : Generator) (moduleName : String) (interfaces : List Interface) : String :=
  Stub.text g.annotator moduleName interfaces

end Generator
end LuaBindings
