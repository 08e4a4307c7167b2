import LuaBindings.Generator
import LuaBindings.Proofs.Declaration.Marked
import LuaBindings.Proofs.TokenTree.Placement

/-!
# The spans of marked blocks

The blocks that a search finds stand one behind the other in the text, from the hash sign
of an attribute to a closing brace each (`apart_inTrees`, `MarkedIn.ends`).
-/

set_option autoImplicit false

namespace LuaBindings

/-- The blocks stand one behind the other: each goes from one token to a later one, and opens
and closes nothing but its own groups. -/
inductive Apart : List Token → List ImplBlock → Prop
  | nil (tokens : List Token) : Apart tokens []
  | cons {before inner after : List Token} {opener closer : Token} {impl : ImplBlock}
    {impls : List ImplBlock} : impl.start = opener.start → impl.stop = closer.stop →
    WellNested (opener :: (inner ++ [closer])) → Apart after impls →
    Apart (before ++ opener :: (inner ++ closer :: after)) (impl :: impls)

namespace Apart

theorem prepend (front : List Token) {tokens : List Token} {impls : List ImplBlock}
    (h : Apart tokens impls) : Apart (front ++ tokens) impls := by
  cases h with
  | nil => exact .nil _
  | cons hstart hstop hnested hafter =>
    rw [← List.append_assoc]
    exact .cons hstart hstop hnested hafter

theorem append {xs ys : List Token} {impls more : List ImplBlock} (hx : Apart xs impls)
    (hy : Apart ys more) : Apart (xs ++ ys) (impls ++ more) := by
  induction hx with
  | nil tokens => exact hy.prepend tokens
  | cons hstart hstop hnested _ ih =>
    rw [List.append_assoc, List.cons_append, List.append_assoc, List.cons_append]
    exact .cons hstart hstop hnested ih

theorem exists_start {tokens : List Token} {impls : List ImplBlock} (h : Apart tokens impls) :
    ∀ impl ∈ impls, ∃ t ∈ tokens, impl.start = t.start := by
  induction h with
  | nil => simp
  | @cons before inner after opener closer impl impls hstart _ _ _ ih =>
    refine List.forall_mem_cons.2 ⟨⟨opener, by simp, hstart⟩, fun i hi => ?_⟩
    obtain ⟨t, ht, heq⟩ := ih i hi
    exact ⟨t, by simp [ht], heq⟩

/-- Blocks that stand apart have spans that are not empty, lie in the text, and come one
behind the other. -/
theorem spans {text : List Char} {tokens : List Token} {impls : List ImplBlock}
    (h : Apart tokens impls) (hstands : ∀ t ∈ tokens, t.StandsIn text)
    (horder : tokens.Pairwise fun a b => a.stop.offset ≤ b.start.offset) :
    (∀ impl ∈ impls, impl.start.offset < impl.stop.offset ∧ impl.stop.offset ≤ text.length) ∧
      impls.Pairwise fun a b => a.stop.offset ≤ b.start.offset := by
  induction h with
  | nil => exact ⟨by simp, .nil⟩
  | @cons before inner after opener closer impl impls hstart hstop _ hafter ih =>
    have hbehind := (List.pairwise_append.1 horder).2.1
    obtain ⟨hopener, hinner⟩ := List.pairwise_cons.1 hbehind
    obtain ⟨hcloser, hrest⟩ := List.pairwise_cons.1 (List.pairwise_append.1 hinner).2.1
    have hopens := hstands opener (by simp)
    have hcloses := hstands closer (by simp)
    obtain ⟨hspans, hpairwise⟩ := ih (fun t ht => hstands t (by simp [ht])) hrest
    refine ⟨List.forall_mem_cons.2 ⟨?_, hspans⟩, .cons (fun i hi => ?_) hpairwise⟩
    · have hlong := hopener closer (by simp)
      have hfirst := hopens.start_lt
      have hlast := hcloses.start_lt
      rw [hstart, hstop]
      exact ⟨by omega, hcloses.stop_le⟩
    · obtain ⟨t, ht, heq⟩ := hafter.exists_start i hi
      rw [hstop, heq]
      exact hcloser t ht

end Apart

/-- The tokens of a list of attributes begin with the hash sign that the first is placed at. -/
theorem Attribute.flatten_trees {first : Attribute} (others : List Attribute)
    (h : first.Formed) : ∃ hash tokens, hash.start = first.place ∧ hash.isPunct "#" = true ∧
      TokenTree.flatten ((first :: others).flatMap Attribute.trees) = hash :: tokens := by
  obtain ⟨hash, brackets, hpunct, _, rfl⟩ := h
  refine ⟨hash, TokenTree.flatten (brackets.tree :: others.flatMap Attribute.trees), rfl,
    hpunct, ?_⟩
  rw [List.flatMap_cons]
  exact TokenTree.flatten_token_cons hash _

open TokenTree in
/-- A block that is read stands in the text from the hash sign of its first attribute to the
closing brace of its body. -/
theorem ImplBlock.exists_run {trees after : List TokenTree} {first marker : Attribute}
    {others kept : List Attribute} {anchor : Option Location} {impl : ImplBlock} {c : Cursor}
    (hleading : Attribute.leading trees = (first :: others, after))
    (hread : reader first.place marker kept (Cursor.ofTrees after anchor) = .ok impl c) :
    ∃ (block : List TokenTree) (opener closer : Token) (inner : List Token),
      trees = block ++ after.drop c.position ∧
      flatten block = opener :: (inner ++ [closer]) ∧
      impl.start = opener.start ∧ impl.stop = closer.stop := by
  obtain ⟨htrees, hattributes, _⟩ := Attribute.leading_eq hleading
  obtain ⟨head, body, hafter, _, _, hstart, hstop⟩ := taken_of_reader hread
  obtain ⟨hash, more, hplace, _, hflatten⟩ :=
    Attribute.flatten_trees others (hattributes first List.mem_cons_self)
  refine ⟨(first :: others).flatMap Attribute.trees ++ (head ++ [body.tree]), hash, body.closer,
    more ++ (flatten head ++ body.opener :: flatten body.inner), ?_, ?_,
    hstart.trans hplace.symm, hstop⟩
  · rw [htrees, List.append_assoc, List.append_assoc]
    exact congrArg _ hafter
  · rw [flatten_append, hflatten, flatten_append, Group.tree, flatten_group_cons, flatten_nil]
    simp

open TokenTree in
theorem apart_inTrees (attrName : String) {trees : List TokenTree} (hformed : Formed trees) :
    Apart (flatten trees) (Found.inTrees attrName trees).impls := by
  fun_induction Found.inTrees attrName trees with
  | case1 => exact .nil _
  | case2 tree rest after h _ _ ihinner ihrest =>
    have hsplit : Formed ([tree] ++ rest) := hformed
    have htree : Apart tree.tokens (Found.inTrees attrName (Found.inBraces tree)).impls := by
      rcases Found.inBraces_cases tree with hnil | ⟨g, _, rfl, hinner⟩
      · rw [hnil, Found.inTrees_nil]
        exact .nil _
      · rw [hinner] at ihinner ⊢
        have hclosed := (ihinner hsplit.of_append.1.of_group.1).append (.nil [g.closer])
        rw [List.append_nil] at hclosed
        rw [Group.tree, tokens]
        exact hclosed.prepend [g.opener]
    rw [flatten]
    exact htree.append (ihrest hsplit.of_append.2)
  | case3 tree rest first others after h _ attributes hnone =>
    rename_i ih
    rw [(Attribute.leading_eq h).1] at hformed
    rw [(Attribute.leading_eq h).1, flatten_append]
    exact (ih hformed.of_append.2).prepend _
  | case4 tree rest first others after h _ attributes marker hsome anchor reader impl c hread =>
    rename_i ih
    obtain ⟨block, opener, closer, inner, hsplit, hrun, hstart, hstop⟩ :=
      ImplBlock.exists_run h hread
    rw [hsplit] at hformed
    obtain ⟨hblock, hbehind⟩ := hformed.of_append
    have hnested := hblock.wellNested
    rw [hrun] at hnested
    have htokens : flatten (tree :: rest) =
        [] ++ opener :: (inner ++ closer :: flatten (after.drop c.position)) := by
      rw [hsplit, flatten_append, hrun]
      simp
    rw [htokens]
    exact .cons hstart hstop hnested (ih hbehind)
  | case5 tree rest first others after h _ attributes marker hsome anchor reader f c hread =>
    rename_i ih
    obtain ⟨passed, hafter, _⟩ := Fresh.throughEnd [] after
    have hrest := (congrArg flatten hafter).trans (flatten_append _ _)
    rw [(Attribute.leading_eq h).1] at hformed
    have hbehind := hformed.of_append.2
    rw [hafter] at hbehind
    rw [(Attribute.leading_eq h).1, flatten_append, hrest]
    exact ((ih hbehind.of_append.2).prepend _).prepend _

/-! ### The ends of a span -/

/-- A block in a text begins at a hash sign and ends behind a closing brace. -/
theorem MarkedIn.ends {attrName : String} {text : List Char} {trees siblings : List TokenTree}
    {impl : ImplBlock} (htext : TokenTree.ofText text = .ok trees)
    (hlevel : TokenTree.Level (· = .brace) trees siblings) (h : MarkedIn attrName siblings impl) :
    text[impl.start.offset]? = some '#' ∧ text[impl.stop.offset - 1]? = some '\x7d' := by
  obtain ⟨hfault, hformed, hflatten⟩ := TokenTree.outcome_of_ofText htext
  have hstands := (TokenTree.laid_flatten htext).standsIn
  have hlevel' := hlevel.formed hformed
  have hmem := hlevel.infix_flatten.subset
  cases h with
  | @intro before head after first others body impl hattributes _ _ _ hbrace _ hstart hstop =>
    obtain ⟨hash, more, hplace, hpunct, hrun⟩ :=
      Attribute.flatten_trees others (hattributes first List.mem_cons_self)
    rw [TokenTree.flatten_append, TokenTree.flatten_append, hrun, TokenTree.flatten_append,
      Group.tree, TokenTree.flatten_group_cons] at hmem
    have hhash := @hmem hash (by simp)
    have hcloser := @hmem body.closer (by simp)
    have hhashText : hash.text = "#" := by
      simp only [Token.isPunct, Bool.and_eq_true, beq_iff_eq] at hpunct
      exact hpunct.2
    have hkind := hlevel'.of_append.2.of_append.2.of_append.2.of_group.2
    have hcloserText : body.closer.text = "\x7d" := by
      rw [hbrace] at hkind
      refine (NestingScan.cut_scanFrom .first text).closer_text _ ?_ _ hkind
      rw [hflatten] at hcloser
      exact List.mem_of_mem_filter hcloser
    have hlength := (hstands _ hcloser).length_eq
    have hfirst := (hstands _ hhash).getElem?_eq (i := 0) (by simp [hhashText])
    have hlast := (hstands _ hcloser).getElem?_eq (i := 0) (by simp [hcloserText])
    rw [hhashText] at hfirst
    rw [hcloserText] at hlast hlength
    refine ⟨?_, ?_⟩
    · rw [hstart, ← hplace]
      exact hfirst
    · rw [hstop, hlength]
      exact hlast

end LuaBindings
