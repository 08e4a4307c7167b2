/-!
# Writing indented code

A writer holds the lines so far, the depth at which the next line is indented, and
the closing lines of the blocks that are open.
-/

set_option autoImplicit false

namespace LuaBindings

structure CodeWriter where
  written : Array String
  depth : Nat
  /-- The closing lines of the open blocks, innermost first. -/
  footers : List String
  deriving DecidableEq, Repr

namespace CodeWriter

def empty : CodeWriter := ⟨#[], 0, []⟩

def indentation (depth : Nat) : String := String.ofList (List.replicate (4 * depth) ' ')

def line (w : CodeWriter) (text : String) : CodeWriter :=
  { w with
    written := w.written.push (if text.isEmpty then "" else indentation w.depth ++ text) }

def lines (w : CodeWriter) (texts : List String) : CodeWriter := texts.foldl line w

def indent (w : CodeWriter) : CodeWriter := { w with depth := w.depth + 1 }

def dedent (w : CodeWriter) : CodeWriter := { w with depth := w.depth - 1 }

def enter (w : CodeWriter) (header footer : String) : CodeWriter :=
  let w := (w.line header).indent
  { w with footers := footer :: w.footers }

def leave (w : CodeWriter) : CodeWriter :=
  match w.footers with
  | [] => w
  | footer :: footers => { w.dedent with footers := footers }.line footer

def block (w : CodeWriter) (header footer : String) (body : CodeWriter → CodeWriter) :
    CodeWriter :=
  (body (w.enter header footer)).leave

def output (w : CodeWriter) : String := String.intercalate "\n" w.written.toList

end CodeWriter
end LuaBindings
