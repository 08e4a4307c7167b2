import LuaBindings.Files
import LuaBindings.Generator

/-!
# Runs over files

A run takes the input files in their order, writes the bindings of each, and keeps a
log. A file that fails writes nothing and stops no other. What the log and the files
hold when a run halts, stays.
-/

set_option autoImplicit false

namespace LuaBindings

inductive Halt where
  | codePoint
  | fileFault (fault : FileFault) (name : String)
  /-- A name with a null character in it names no file. -/
  | nullInName
  /-- No text is given for where to write to. -/
  | outputWithoutText
  /-- No text is given for an annotation. -/
  | entryWithoutText
  deriving DecidableEq, Repr

def Halt.message : Halt → String
  | codePoint => "a string names a code point that does not exist"
  | fileFault fault name => s!"{fault.message}: {name}"
  | nullInName => "a file name holds a null character"
  | outputWithoutText => "the output directory has no name"
  | entryWithoutText => "an annotation has no text"

/-- Where a run writes to. Without a directory for stubs there are none. -/
structure Roots where
  output : String
  stubs : Option String
  deriving DecidableEq, Repr

structure FileRun where
  generator : Generator
  files : Files
  /-- The lines of the log, last first. -/
  log : List String
  failed : Nat
  halt : Option Halt
  deriving Repr

namespace FileRun

def say (r : FileRun) (line : String) : FileRun := { r with log := line :: r.log }

def stop (r : FileRun) (halt : Halt) : FileRun := { r with halt := some halt }

def load (files : Files) (name : String) : Except Failure String :=
  match files.read name with
  | .error fault => .error (.single ⟨.unreadable fault, none, none⟩)
  | .ok bytes =>
    match Text.Utf8.decode bytes with
    | .error (fault, offset) => .error (.single ⟨.invalidUtf8 fault offset, none, none⟩)
    | .ok text => .ok (String.ofList (Text.Utf8.unifyLineEnds text))

/-- Counts an input that failed, and reports every line of what is wrong with it. -/
def fail (r : FileRun) (input : String) (f : Failure) : FileRun :=
  let lines := (Text.splitLines f.text).map fun line => s!"  >> error: {input}:{line}"
  { lines.foldl say r with failed := r.failed + 1 }

theorem foldl_say (r : FileRun) (lines : List String) :
    lines.foldl say r = { r with log := lines.reverse ++ r.log } := by
  induction lines generalizing r with
  | nil => rfl
  | cons line lines ih =>
    rw [List.foldl_cons, ih, List.reverse_cons, List.append_assoc]
    rfl

/-- A failure shows in the log and in the count. -/
theorem fail_eq (r : FileRun) (input : String) (f : Failure) :
    ∃ log, r.fail input f = { r with log := log, failed := r.failed + 1 } := by
  rw [fail, foldl_say]
  exact ⟨_, rfl⟩

def hasNull (name : String) : Bool := name.toList.contains '\x00'

def makeDirectory (r : FileRun) (name : String) : FileRun :=
  if hasNull name then r.stop .nullInName
  else
    match r.files.makeDirectory name with
    | .ok files => { r with files := files }
    | .error fault => r.stop (.fileFault fault name)

def write (r : FileRun) (name text : String) : FileRun :=
  match r.files.write name text.toUTF8.toList with
  | .ok files => { r with files := files }
  | .error fault => r.stop (.fileFault fault name)

def andThen (r : FileRun) (f : FileRun → FileRun) : FileRun :=
  if r.halt.isSome then r else f r

def outputName (roots : Roots) (input : String) : String :=
  Text.PathName.join roots.output (Text.PathName.stem input ++ "_lua.rs")

def stubName (directory input : String) : String :=
  Text.PathName.join directory (Text.PathName.stem input ++ ".lua")

/-- Writes the stub of an input, if there is a directory for stubs. -/
def writeStub (roots : Roots) (input : String) (interfaces : List Interface) (r : FileRun) :
    FileRun :=
  match roots.stubs with
  | none => r
  | some directory =>
    r.write (stubName directory input)
      (r.generator.stub (Text.PathName.stem input) interfaces)

def emit (roots : Roots) (input source : String) (interfaces : List Interface) (r : FileRun) :
    FileRun :=
  match Generator.expand source interfaces with
  | .error f => r.fail input f
  | .ok expansion =>
    let output := outputName roots input
    ((r.say s!"  {input} => {output}").write output expansion).andThen
      (writeStub roots input interfaces)

def takeSource (roots : Roots) (input source : String) (r : FileRun) : FileRun :=
  match r.generator.read source with
  | .error (.diagnosed f) => r.fail input f
  | .error .codePoint => r.stop .codePoint
  | .ok [] =>
    r.say s!"  >> warning: no #[lua_methods] impl blocks in {input}, skipping..."
  | .ok interfaces =>
    emit roots input source interfaces { r with generator := r.generator.record interfaces }

def takeInput (roots : Roots) (r : FileRun) (input : String) : FileRun :=
  r.andThen fun r =>
    if hasNull input then r.stop .nullInName
    else
      match load r.files input with
      | .error f => r.fail input f
      | .ok source => takeSource roots input source r

def announce (r : FileRun) : FileRun := r.say "=== Generating Lua bindings:"

def prepare (roots : Roots) (r : FileRun) : FileRun :=
  let r := r.announce.makeDirectory roots.output
  match roots.stubs with
  | none => r
  | some directory => r.andThen (·.makeDirectory directory)

def finish (r : FileRun) : FileRun :=
  if r.failed = 0 then r else r.say s!"  >> error: {r.failed} file(s) failed"

def start (generator : Generator) (files : Files) : FileRun := ⟨generator, files, [], 0, none⟩

def run (r : FileRun) (roots : Roots) (inputs : List String) : FileRun :=
  (inputs.foldl (takeInput roots) (prepare roots r)).andThen finish

def output (r : FileRun) : String := String.join (r.log.reverse.map (· ++ "\n"))

def status? (r : FileRun) : Option Nat :=
  match r.halt with
  | some _ => none
  | none => some (if r.failed = 0 then 0 else 1)

end FileRun
end LuaBindings
