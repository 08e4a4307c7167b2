import LuaBindings.TokenTree.Layout

/-!
# Types

The types that the generated code distinguishes. Each keeps the trees it was read
from, for it is written out as it stood. Whatever is not a reference, a path or a
tuple is kept as it is.
-/

set_option autoImplicit false

namespace LuaBindings

mutual

inductive RustType where
  | reference (trees : List TokenTree) (lifetime : Option String) (isMut : Bool) (elem : RustType)
  | path (trees : List TokenTree) (leadingColon : Bool) (qualifiers : List PathSegment)
    (last : PathSegment)
  | tuple (trees : List TokenTree) (elems : List RustType)
  | other (trees : List TokenTree)
  deriving Repr

inductive PathSegment where
  | mk (name : String) (args : List TypeArg)
  deriving Repr

inductive TypeArg where
  | lifetime (name : String)
  | type (t : RustType)
  deriving Repr

end

namespace PathSegment

def name : PathSegment → String
  | mk name _ => name

def args : PathSegment → List TypeArg
  | mk _ args => args

end PathSegment

namespace RustType

def trees : RustType → List TokenTree
  | reference trees .. | path trees .. | tuple trees _ | other trees => trees

def text (t : RustType) : String := Layout.inline t.trees

def baseName? : RustType → Option String
  | path _ _ _ last => some last.name
  | _ => none

def pathName? : RustType → Option String
  | path _ _ qualifiers last =>
    some (String.intercalate "::" ((qualifiers ++ [last]).map PathSegment.name))
  | _ => none

end RustType
end LuaBindings
