/-!
# Places in a source text

Offsets count characters from zero; lines and columns count from one. Only a
line feed ends a line.
-/

set_option autoImplicit false

namespace LuaBindings

structure Location where
  offset : Nat
  line : Nat
  column : Nat
  deriving DecidableEq, Repr, Inhabited

namespace Location

def first : Location := ⟨0, 1, 1⟩

def next (here : Location) (c : Char) : Location :=
  if c = '\n' then ⟨here.offset + 1, here.line + 1, 1⟩
  else ⟨here.offset + 1, here.line, here.column + 1⟩

def after (here : Location) (text : List Char) : Location :=
  text.foldl next here

theorem after_append (here : Location) (s t : List Char) :
    here.after (s ++ t) = (here.after s).after t :=
  List.foldl_append

theorem next_offset (here : Location) (c : Char) : (here.next c).offset = here.offset + 1 := by
  unfold next
  split <;> rfl

theorem after_offset (here : Location) (text : List Char) :
    (here.after text).offset = here.offset + text.length := by
  induction text generalizing here with
  | nil => rfl
  | cons c text ih =>
    change ((here.next c).after text).offset = _
    rw [ih, next_offset, List.length_cons]
    omega

end Location
end LuaBindings
