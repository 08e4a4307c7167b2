import LuaBindings.Diagnostic
import LuaBindings.Text.PathName

/-!
# Files

The files and directories that a run can see. A path is the list of the components
that lead to it from where the run started. A component on the way that is no
directory leads nowhere.
-/

set_option autoImplicit false

namespace LuaBindings

abbrev Path := List String

structure Files where
  contents : List (Path × List UInt8)
  /-- Directories that need not hold a file. -/
  directories : List Path
  deriving DecidableEq, Repr

namespace Files

def empty : Files := ⟨[], []⟩

def root : Path := ["/"]

/-- Leaves a directory. Above the start there is always one more to leave to, and
nothing is above the root. -/
def parent (path : Path) : Path :=
  if path = root then root
  else if path.all (· == "..") then path ++ [".."]
  else path.dropLast

/-- A directory is the root, or is where a run starts or lies above it, or was made, or
holds something. -/
def isDirectory (files : Files) (path : Path) : Bool :=
  path = root || path.all (· == "..") || files.directories.any (path.isPrefixOf ·) ||
    files.contents.any fun entry => path.isPrefixOf entry.1 && entry.1 != path

def steps (name : String) : List String :=
  let components := (Text.PathName.components name).filter fun c => c != "" && c != "."
  if name.toList.head? = some '/' then root ++ components else components

def content? (files : Files) (path : Path) : Option (List UInt8) :=
  (files.contents.find? (·.1 == path)).map Prod.snd

/-- Why the way does not lead on from a path that is no directory. -/
def stopFault (files : Files) (path : Path) : FileFault :=
  if (files.content? path).isSome then .notDirectory else .missing

def walk (files : Files) (path : Path) : List String → Except FileFault Path
  | [] => .ok path
  | step :: rest =>
    if step = ".." then walk files (parent path) rest
    else
      let path := path ++ [step]
      if rest.isEmpty then .ok path
      else if files.isDirectory path then walk files path rest
      else .error (files.stopFault path)

/-- The path that a name stands for. The empty name stands for nothing. -/
def locate (files : Files) (name : String) : Except FileFault Path :=
  if name.isEmpty then .error .missing else files.walk [] (steps name)

def read (files : Files) (name : String) : Except FileFault (List UInt8) :=
  match files.locate name with
  | .error fault => .error fault
  | .ok path =>
    match files.content? path with
    | some content => .ok content
    | none => if files.isDirectory path then .error .isDirectory else .error .missing

def put (files : Files) (path : Path) (content : List UInt8) : Files :=
  { files with
    contents := (path, content) :: files.contents.filter fun entry => entry.1 != path }

def write (files : Files) (name : String) (content : List UInt8) : Except FileFault Files :=
  match files.locate name with
  | .error fault => .error fault
  | .ok path =>
    if files.isDirectory path then .error .isDirectory else .ok (files.put path content)

/-- Makes the directories on the way from a directory, where they are missing. -/
def makeFrom (files : Files) (path : Path) : List String → Except FileFault Files
  | [] => .ok files
  | step :: rest =>
    if step = ".." then makeFrom files (parent path) rest
    else
      let path := path ++ [step]
      if files.isDirectory path then makeFrom files path rest
      else if (files.content? path).isSome then
        .error (if rest.isEmpty then .fileExists else .notDirectory)
      else makeFrom { files with directories := path :: files.directories } path rest

def makeDirectory (files : Files) (name : String) : Except FileFault Files :=
  if name.isEmpty then .error .missing else files.makeFrom [] (steps name)

def add (files : Files) (name : String) (content : List UInt8) : Except FileFault Files := do
  (← files.makeFrom [] (steps name).dropLast).write name content

def pathName : Path → String
  | "/" :: path => "/" ++ String.intercalate "/" path
  | path => String.intercalate "/" path

/-- The files that are new or have another content, in the order of their names. -/
def changes (before after : Files) : List (String × List UInt8) :=
  let changed := after.contents.filter fun entry => before.content? entry.1 != some entry.2
  (changed.map fun entry => (pathName entry.1, entry.2)).mergeSort
    fun a b => !decide (b.1 < a.1)

end Files
end LuaBindings
