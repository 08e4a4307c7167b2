import LuaBindings.Proofs.Declaration.Joined
import LuaBindings.Proofs.TokenTree.Nesting

/-!
# Marked items

The items of a text that are marked, at any depth of braces, each with its attributes and up to its
end. They are cut out by their braces and semicolons alone. If each ends an item and is complete, a
search of the text finds what the searches of the items find (`Found.inTrees_eq_joined`).
-/

set_option autoImplicit false

namespace LuaBindings

open TokenTree (EndsItem Formed)

namespace Found

def joined (founds : List Found) : Found := founds.foldr append empty

theorem joined_append (founds more : List Found) :
    joined (founds ++ more) = (joined founds).append (joined more) := by
  induction founds with
  | nil => exact (empty_append _).symm
  | cons found founds ih =>
    rw [List.cons_append, joined, List.foldr_cons]
    exact (congrArg _ ih).trans (append_assoc _ _ _).symm

/-- The trees behind an item. Generic parameters that close are passed over with all that stands
in them. -/
def behindItem (trees : List TokenTree) : List TokenTree :=
  match ImplBlock.behindImpl? trees with
  | none => ImplItem.throughEnd trees
  | some rest =>
    match RustType.leadingAngle rest with
    | none => ImplItem.throughEnd trees
    | some (_, head) => ImplItem.throughEnd head

theorem leadingToken_suffix (p : TokenTree → Bool) (trees : List TokenTree) :
    (RustType.leadingToken p trees).2 <:+ trees := by
  unfold RustType.leadingToken
  split
  · exact List.drop_suffix _ _
  · exact List.suffix_refl _

theorem behindItem_suffix (trees : List TokenTree) : behindItem trees <:+ trees := by
  unfold behindItem
  split
  · exact ImplItem.throughEnd_suffix trees
  · rename_i rest himpl
    have hrest : rest <:+ trees := by
      unfold ImplBlock.behindImpl? at himpl
      split at himpl
      · rename_i heq
        cases himpl
        have hword := leadingToken_suffix (·.isIdent "impl")
          (RustType.leadingToken (·.isIdent "unsafe") trees).2
        rw [heq] at hword
        exact hword.trans (leadingToken_suffix _ trees)
      · cases himpl
    split
    · exact ImplItem.throughEnd_suffix trees
    · rename_i angle head hangle
      have hhead : head <:+ rest := ⟨angle, RustType.leadingAngle_append hangle⟩
      exact (ImplItem.throughEnd_suffix head).trans (hhead.trans hrest)

def items (attrName : String) (trees : List TokenTree) : List (List TokenTree) :=
  match trees with
  | [] => []
  | tree :: rest =>
    match h : Attribute.leading (tree :: rest) with
    | ([], _) =>
      have := Nat.lt_of_lt_of_le (count_inBraces tree)
        (Nat.le_trans (Nat.le_add_right _ _) (Nat.le_of_eq (TokenTree.count_cons tree rest).symm))
      have := TokenTree.count_lt_cons tree rest
      items attrName (inBraces tree) ++ items attrName rest
    | (first :: others, after) =>
      have := count_leading h
      if (first :: others).any (·.name == attrName) then
        have := TokenTree.count_le_of_sublist (behindItem_suffix after).sublist
        (tree :: rest).take ((tree :: rest).length - (behindItem after).length) ::
          items attrName (behindItem after)
      else items attrName after
termination_by TokenTree.count trees
decreasing_by all_goals omega

variable {attrName : String} {trees : List TokenTree}

/-- What is found in a text is what is found in its marked items, if none runs on behind its end. -/
theorem inTrees_eq_joined
    (h : ∀ item ∈ items attrName trees, EndsItem item ∧ Complete attrName item) :
    inTrees attrName trees = joined ((items attrName trees).map (inTrees attrName)) := by
  fun_induction items attrName trees with
  | case1 => exact inTrees_nil _
  | case2 tree rest after hleading _ _ ihinner ihrest =>
    obtain ⟨hinner, hrest⟩ := List.forall_mem_append.1 h
    rw [inTrees_tree hleading, ihinner hinner, ihrest hrest, List.map_append, joined_append]
  | case3 tree rest first others after hleading _ hmarked _ ih =>
    obtain ⟨⟨hends, hcomplete⟩, hrest⟩ := List.forall_mem_cons.1 h
    have hafter : after <:+ tree :: rest := by
      have hsuffix := Attribute.leading_suffix (tree :: rest)
      rwa [hleading] at hsuffix
    have hsplit := List.suffix_iff_eq_append.1 ((behindItem_suffix after).trans hafter)
    have happend := inTrees_append hends hcomplete (behindItem after)
    rw [hsplit, ih hrest] at happend
    exact happend
  | case4 tree rest first others after hleading _ hunmarked ih =>
    have hnone : (first :: others).find? (·.name == attrName) = none := by
      rw [List.find?_eq_none]
      simpa using hunmarked
    rw [inTrees_unmarked hleading hnone, ih h]

theorem formed_inBraces {tree : TokenTree} {rest : List TokenTree} (h : Formed (tree :: rest)) :
    Formed (inBraces tree) := by
  cases tree with
  | token t => exact .nil
  | group d opener inner closer =>
    by_cases hd : d = .brace
    · simpa [inBraces, TokenTree.group?, hd] using h.of_group.1
    · simpa [inBraces, TokenTree.group?, hd] using Formed.nil

theorem formed_of_mem_items (h : Formed trees) : ∀ item ∈ items attrName trees, Formed item := by
  fun_induction items attrName trees with
  | case1 => exact List.forall_mem_nil _
  | case2 tree rest after hleading _ _ ihinner ihrest =>
    exact List.forall_mem_append.2 ⟨ihinner (formed_inBraces h),
      ihrest (h.of_part (List.suffix_cons tree rest).isInfix)⟩
  | case3 tree rest first others after hleading _ hmarked _ ih =>
    have hafter : after <:+ tree :: rest := by
      have hsuffix := Attribute.leading_suffix (tree :: rest)
      rwa [hleading] at hsuffix
    exact List.forall_mem_cons.2 ⟨h.of_part (List.take_prefix _ _).isInfix,
      ih (h.of_part ((behindItem_suffix after).trans hafter).isInfix)⟩
  | case4 tree rest first others after hleading _ hunmarked ih =>
    have hafter : after <:+ tree :: rest := by
      have hsuffix := Attribute.leading_suffix (tree :: rest)
      rwa [hleading] at hsuffix
    exact ih (h.of_part hafter.isInfix)

end Found
end LuaBindings
