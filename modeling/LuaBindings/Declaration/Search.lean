import LuaBindings.Declaration.ImplBlock
import LuaBindings.TokenTree.Reading

/-!
# Finding marked impl blocks

Marked blocks may stand at any depth of braces. Attributes without the mark are
passed over, and so is a marked item that fails, up to its end; the search goes on
behind it. Whatever fails in a text is reported together.
-/

set_option autoImplicit false

namespace LuaBindings

/-- The blocks and the failures of a search, each in the order of the text. -/
structure Found where
  impls : List ImplBlock
  failures : List Failure

namespace Found

def empty : Found := ⟨[], []⟩

def append (a b : Found) : Found := ⟨a.impls ++ b.impls, a.failures ++ b.failures⟩

/-- The trees inside of braces; nothing if the tree is something else. -/
def inBraces (tree : TokenTree) : List TokenTree :=
  match tree.group? .brace with
  | some g => g.inner
  | none => []

theorem count_inBraces (tree : TokenTree) :
    TokenTree.count (inBraces tree) < tree.tokens.length := by
  unfold inBraces
  split
  · rename_i g hg
    match tree, hg with
    | .group d opener inner closer, hg =>
      simp only [TokenTree.group?] at hg
      split at hg
      · cases hg
        change TokenTree.count inner < (opener :: (TokenTree.flatten inner ++ [closer])).length
        simp only [TokenTree.count, List.length_cons, List.length_append]
        omega
      · cases hg
    | .token _, hg => cases hg
  · exact TokenTree.tokens_length_pos tree

theorem count_leading {trees after : List TokenTree} {a : Attribute} {as : List Attribute}
    (h : Attribute.leading trees = (a :: as, after)) :
    TokenTree.count after < TokenTree.count trees := by
  match trees with
  | hash :: brackets :: rest =>
    unfold Attribute.leading at h
    split at h
    · have hsuffix := (Attribute.leading_suffix rest).sublist
      simp only [Prod.mk.injEq] at h
      rw [h.2] at hsuffix
      have hle := TokenTree.count_le_of_sublist (hsuffix.trans (List.sublist_cons_self brackets _))
      exact Nat.lt_of_le_of_lt hle (TokenTree.count_lt_cons _ _)
    · cases h
  | [_] => simp [Attribute.leading] at h
  | [] => simp [Attribute.leading] at h

/-- Searches the trees for blocks with an attribute of the given name. -/
def inTrees (attrName : String) (trees : List TokenTree) : Found :=
  match trees with
  | [] => empty
  | tree :: rest =>
    match h : Attribute.leading (tree :: rest) with
    | ([], _) =>
      have := Nat.lt_of_lt_of_le (count_inBraces tree)
        (Nat.le_trans (Nat.le_add_right _ _) (Nat.le_of_eq (TokenTree.count_cons tree rest).symm))
      have := TokenTree.count_lt_cons tree rest
      (inTrees attrName (inBraces tree)).append (inTrees attrName rest)
    | (first :: others, after) =>
      have := count_leading h
      let attributes := first :: others
      match attributes.find? (·.name == attrName) with
      | none => inTrees attrName after
      | some marker =>
        let anchor := TokenTree.endPlace none (tree :: rest)
        let reader :=
          ImplBlock.reader first.place marker (attributes.eraseP (·.name == attrName))
        match reader (Cursor.ofTrees after anchor) with
        | .ok impl c =>
          have := TokenTree.count_le_of_sublist (List.drop_sublist c.position after)
          (Found.mk [impl] []).append (inTrees attrName (after.drop c.position))
        | .error f _ =>
          have := TokenTree.count_le_of_sublist (ImplItem.throughEnd_suffix after).sublist
          (Found.mk [] [f]).append (inTrees attrName (ImplItem.throughEnd after))
termination_by TokenTree.count trees
decreasing_by all_goals omega

end Found

def ImplBlock.defaultMarker : String := "lua_methods"

/-- The marked blocks of a source text, or everything that failed in it. -/
def ImplBlock.ofSource (source attrName : String) : Except Failure (List ImplBlock) :=
  match TokenTree.ofSource source with
  | .error f => .error f
  | .ok trees =>
    let found := Found.inTrees attrName trees
    Failure.refuse found.failures found.impls

end LuaBindings
