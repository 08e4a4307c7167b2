import LuaBindings.TokenTree

/-!
# Renaming identifiers

A table of names is applied to every identifier of a tree at once. Literals are
single tokens, so nothing inside them is touched, and all tokens keep their places.
-/

set_option autoImplicit false

namespace LuaBindings

abbrev Renaming := List (String × String)

namespace Renaming

def name (table : Renaming) (old : String) : String := (table.lookup old).getD old

def token (table : Renaming) (t : Token) : Token :=
  if t.kind = .ident then { t with text := table.name t.text } else t

mutual

def tree (table : Renaming) : TokenTree → TokenTree
  | .token t => .token (table.token t)
  | .group d opener inner closer =>
    .group d (table.token opener) (trees table inner) (table.token closer)

def trees (table : Renaming) : List TokenTree → List TokenTree
  | [] => []
  | t :: rest => tree table t :: trees table rest

end

def receiverBinding : String := "__cb_this"

/-- Renames the receiver keyword to the adapter's binding of it. -/
def receiver : Renaming := [("self", receiverBinding)]

end Renaming
end LuaBindings
