import LuaBindings.Text.Ranges

/-!
# White space of free text

The token grammar has white space of its own. This is the wider class that
applies where text is trimmed or where a string literal continues on the next
line: the ASCII blanks, the information separators, and the spaces and line
separators of Unicode.
-/

set_option autoImplicit false

namespace LuaBindings.Text

def blankRanges : Ranges :=
  [(0x09, 0x0D), (0x1C, 0x20), (0x85, 0x85), (0xA0, 0xA0), (0x1680, 0x1680),
    (0x2000, 0x200A), (0x2028, 0x2029), (0x202F, 0x202F), (0x205F, 0x205F), (0x3000, 0x3000)]

def isBlank (c : Char) : Bool := inRanges blankRanges c

def trim (text : String) : String :=
  String.ofList (((text.toList.dropWhile isBlank).reverse.dropWhile isBlank).reverse)

end LuaBindings.Text
