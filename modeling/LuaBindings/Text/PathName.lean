/-!
# Path names

A path name is a text whose components stand between slashes. The stem of a path
name is its last component without its extension; dots at the front of a component
begin no extension.
-/

set_option autoImplicit false

namespace LuaBindings.Text.PathName

def components (name : String) : List String :=
  (name.toList.splitOn '/').map String.ofList

def baseName (name : String) : String := (components name).getLastD ""

def beforeLastDot? : List Char → Option (List Char)
  | [] => none
  | c :: rest =>
    match beforeLastDot? rest with
    | some front => some (c :: front)
    | none => if c = '.' then some [] else none

def dropExtension (component : List Char) : List Char :=
  match beforeLastDot? component with
  | some front => if front.all (· == '.') then component else front
  | none => component

def stem (name : String) : String := String.ofList (dropExtension (baseName name).toList)

def join (directory member : String) : String :=
  if directory.isEmpty || directory.toList.getLast? == some '/' then directory ++ member
  else directory ++ "/" ++ member

end LuaBindings.Text.PathName
