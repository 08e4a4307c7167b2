import LuaBindings.TokenTree

/-!
# Outer attributes

An attribute is a hash sign and a group in brackets that holds a path and, behind
it, maybe a group of arguments in parentheses. What else is in the brackets is
left alone.
-/

set_option autoImplicit false

namespace LuaBindings

structure Attribute where
  path : List String
  args : Option Group
  /-- The hash sign and the brackets. -/
  trees : List TokenTree
  place : Location
  deriving Repr

namespace Attribute

/-- The last segment of the path, or nothing if there is no path. -/
def name (a : Attribute) : String := a.path.getLast?.getD ""

/-- The segments of a path without arguments, and the trees after it. -/
def pathOf : List TokenTree → List String × List TokenTree
  | tree :: rest =>
    match tree.token? (·.kind == .ident) with
    | none => ([], tree :: rest)
    | some t =>
      match rest with
      | colons :: rest' =>
        if colons.isPunct "::" then
          let (path, after) := pathOf rest'
          (t.text :: path, after)
        else ([t.text], colons :: rest')
      | [] => ([t.text], [])
  | [] => ([], [])

/-- The attribute that a hash sign and the brackets after it make. -/
def ofBrackets (hash : Token) (brackets : Group) : Attribute :=
  let inner := match brackets.inner with
    | tree :: rest => if tree.isPunct "::" then rest else tree :: rest
    | [] => []
  let (path, after) := pathOf inner
  ⟨path, after.head?.bind (TokenTree.group? .paren), [.token hash, brackets.tree], hash.start⟩

/-- The attributes at the front of some trees, and the trees after them. -/
def leading : List TokenTree → List Attribute × List TokenTree
  | hash :: brackets :: rest =>
    match hash.token? (·.isPunct "#"), brackets.group? .bracket with
    | some hash, some brackets =>
      let (attributes, after) := leading rest
      (ofBrackets hash brackets :: attributes, after)
    | _, _ => ([], hash :: brackets :: rest)
  | trees => ([], trees)

theorem leading_suffix (trees : List TokenTree) : (leading trees).2 <:+ trees := by
  fun_induction leading trees with
  | case1 hash brackets rest _ _ _ _ attributes after heq ih =>
    rw [heq] at ih
    exact (ih.trans (List.suffix_cons _ _)).trans (List.suffix_cons _ _)
  | case2 => exact List.suffix_refl _
  | case3 => exact List.suffix_refl _

end Attribute
end LuaBindings
