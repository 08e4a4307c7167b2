/-!
# Published names

A name in snake case is published in camel case: the segments after the first are
capitalised, some of them throughout, and the underscores go. Names are ASCII.
-/

set_option autoImplicit false

namespace LuaBindings.Text

def fullUpperSegments : List String := ["xy", "xyz", "srgb", "xyzd50", "2d"]

/-- The segments between underscores: the first, and those after it. -/
def segments : List Char → List Char × List (List Char)
  | [] => ([], [])
  | c :: rest =>
    let (first, others) := segments rest
    if c = '_' then ([], first :: others) else (c :: first, others)

def capitalise : List Char → List Char
  | [] => []
  | c :: rest => c.toUpper :: rest

def publishSegment (segment : List Char) : List Char :=
  if fullUpperSegments.contains (String.ofList segment) then segment.map Char.toUpper
  else capitalise segment

def camelCase (name : String) : String :=
  let (first, others) := segments name.toList
  String.ofList (first ++ others.flatMap publishSegment)

end LuaBindings.Text
