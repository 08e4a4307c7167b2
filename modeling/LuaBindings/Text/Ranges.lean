/-!
# Ranges of code points

A class of characters is listed as ranges of code points. Both ends of a range
belong to it.
-/

set_option autoImplicit false

namespace LuaBindings.Text

abbrev Ranges := List (Nat × Nat)

def inRanges (ranges : Ranges) (c : Char) : Bool :=
  ranges.any fun range => range.1 ≤ c.toNat && c.toNat ≤ range.2

end LuaBindings.Text
