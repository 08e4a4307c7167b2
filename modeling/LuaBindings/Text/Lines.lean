/-!
# Lines of a text

A text is cut at every line boundary of Unicode, and a carriage return before a
line feed is one boundary with it. A boundary at the end opens no further line.
-/

set_option autoImplicit false

namespace LuaBindings.Text

/-- Line feed, vertical tab, form feed, carriage return, the file, group and
record separators, next line, and the line and paragraph separators. -/
def isLineBoundary (c : Char) : Bool :=
  c ∈ ['\n', '\x0b', '\x0c', '\r', '\x1c', '\x1d', '\x1e', '\u0085', '\u2028', '\u2029']

def extendFirst (c : Char) : List (List Char) → List (List Char)
  | [] => [[c]]
  | line :: lines => (c :: line) :: lines

def cutLines : List Char → List (List Char)
  | [] => []
  | '\r' :: '\n' :: rest => [] :: cutLines rest
  | c :: rest =>
    if isLineBoundary c then [] :: cutLines rest else extendFirst c (cutLines rest)

def splitLines (text : String) : List String :=
  (cutLines text.toList).map String.ofList

end LuaBindings.Text
