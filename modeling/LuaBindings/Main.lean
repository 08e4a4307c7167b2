import LuaBindings.CommandLine

/-!
# The program

Reads the inputs that are there, runs over them, and writes what the run has changed.
-/

set_option autoImplicit false

namespace LuaBindings.Main

def usage : String :=
  "usage: lua-bindings [-h] [--output OUTPUT] [--types TYPES] [--args-path ARGS_PATH]\n" ++
  "                    [--runtime-crate RUNTIME_CRATE] [--context-type CONTEXT_TYPE]\n" ++
  "                    [--lua-type NAME=ANNOTATION]\n" ++
  "                    inputs [inputs ...]\n"

def addInput (files : Files) (name : String) : IO Files := do
  match ← (IO.FS.readBinFile name).toBaseIO with
  | .ok content => return files.put (Files.steps name) content.toList
  | .error (.noFileOrDirectory ..) => return files
  | .error _ => return ((files.makeDirectory name).toOption).getD files

def writeChange (change : String × List UInt8) : IO Unit :=
  IO.FS.writeBinFile change.1 (ByteArray.mk change.2.toArray)

/-- Carries out what a run has done, and gives its exit status. -/
def perform (before : Files) (r : FileRun) : IO UInt32 := do
  IO.print r.output
  for path in r.files.directories.reverse do
    IO.FS.createDirAll (Files.pathName path)
  for change in Files.changes before r.files do
    writeChange change
  match r.halt with
  | some halt =>
    IO.eprintln halt.message
    return 1
  | none => return (r.status?.getD 0).toUInt32

def refuse (error : CommandLine.UsageError) : IO UInt32 := do
  IO.eprint usage
  IO.eprintln s!"lua-bindings: error: {error.message}"
  return 2

end LuaBindings.Main

open LuaBindings in
def main (words : List String) : IO UInt32 := do
  match CommandLine.read words with
  | .error error => Main.refuse error
  | .ok .help =>
    IO.print Main.usage
    return 0
  | .ok (.run arguments) =>
    let files ← arguments.inputs.foldlM Main.addInput Files.empty
    match arguments.run files with
    | .error error => Main.refuse error
    | .ok r => Main.perform files r
