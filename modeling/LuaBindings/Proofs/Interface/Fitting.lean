import LuaBindings.Proofs.Declaration.Fitting
import LuaBindings.Proofs.Interface.Blocks
import LuaBindings.Proofs.Stub.ParameterNames

/-!
# The parts of an interface fit

What an interface takes from its source and puts into generated text is read there as it is, if
nothing is left open in the source (`Interface.fitting_of_interfaces`).
-/

set_option autoImplicit false

namespace LuaBindings

open NestingScan
open TokenTree (Neighbours)

theorem Layout.exists_inlineTokens_eq (t : Token) (rest : List Token) :
    ∃ more, (inlineTokens (t :: rest)).toList = t.text.toList ++ more := by
  cases rest with
  | nil => exact ⟨[], by rw [inlineTokens_singleton, List.append_nil]⟩
  | cons u rest => exact ⟨_, inlineTokens_cons_cons t u rest⟩

section
variable {text : List Char} {whole : List TokenTree} (htrees : TokenTree.ofText text = .ok whole)
  (hshut : AllShut text)
include htrees hshut

/-- What an argument is typed by stands in the source. -/
theorem Parameter.Gives.fits {p : Parameter} {a : Argument} (h : p.Gives a)
    (hstands : p.StandsIn whole) : Fits a.passing.type.text := by
  cases hpassing : a.passing with
  | value type =>
    obtain ⟨rfl, -⟩ := (h.value type).1 hpassing
    exact (hstands.type.seals htrees hshut).fits
  | handle isMut pointee =>
    obtain ⟨trees, lifetime, htype⟩ := (h.handle isMut pointee).1 hpassing
    obtain ⟨anchor, hreads⟩ := hstands.reads
    have hpart : pointee.trees <:+ p.type.trees := by
      rw [htype] at hreads ⊢
      exact RustType.trees_suffix_of_reference hreads
    exact ((hstands.type.part hpart.isInfix).seals htrees hshut).fits

theorem PreparedMethod.fitting_of_ofMethod {method : Method} {m : PreparedMethod}
    (hstands : method.StandsIn whole) (h : PreparedMethod.ofMethod .default method = .ok m) :
    m.Fitting := by
  obtain ⟨s, hs, h⟩ := exists_of_bind_eq_ok h
  cases h
  obtain ⟨options, hoptions, hclassify⟩ := exists_of_bind_eq_ok hs
  obtain ⟨_, _, _, _, _, _, _, _, hsignature⟩ := Signature.classify_eq_ok_iff.1 hclassify
  have hmethod : s.method = method := by rw [hsignature]
  have hsplits := Adapter.splits_of_ofMethod hs
  obtain ⟨params, hsub, hgives⟩ := Adapter.exists_params hsplits
  have hargs (a : Argument) (ha : a ∈ s.args) :
      ∃ p : Parameter, p.StandsIn whole ∧ p.Gives a := by
    obtain ⟨p, hp, hgives⟩ := exists_of_forall₂ hgives.flip a ha
    exact ⟨p, hstands.params p (hsub hp), hgives⟩
  refine ⟨rfl, Adapter.isLexeme_context htrees hstands.params hsplits, fun a ha => ?_,
    fun a ha => ?_, fun type htype => ?_, fun groups => ?_⟩
  · obtain ⟨p, hp, hgives⟩ := hargs a ha
    exact Adapter.isLexeme_of_binds htrees hp hgives.binds
  · obtain ⟨p, hp, hgives⟩ := hargs a ha
    exact hgives.fits htrees hshut hp
  · refine ((hstands.returnType type ?_).seals htrees hshut).fits
    rw [← hmethod]
    exact htype
  · obtain ⟨hplain, hrenamed⟩ := hstands.body.lines htrees hshut groups
    rw [← hmethod] at hplain hrenamed
    unfold PreparedMethod.body
    split
    · exact hrenamed
    · exact hplain

omit hshut in
/-- An attribute is written from its hash sign and its bracket on. -/
theorem Attribute.Formed.begins {a : Attribute} (h : a.Formed)
    (hstands : Neighbours whole a.trees) :
    ∃ front ∈ ["#[", "# ["], front.toList <+: (Layout.inline a.trees).toList := by
  obtain ⟨hash, brackets, hpunct, hbracket, rfl⟩ := h
  have hformed := hstands.formed htrees
  have hlexeme {t : Token} := hstands.isLexeme_of_mem_flatten (t := t) htrees
  have htokens : TokenTree.flatten (ofBrackets hash brackets).trees = hash :: brackets.opener ::
      (TokenTree.flatten brackets.inner ++ [brackets.closer]) := by
    change TokenTree.flatten [.token hash, brackets.tree] = _
    rw [TokenTree.flatten_token_cons, Group.tree, TokenTree.flatten_group_cons]
    rfl
  have hhash : hash.text = "#" := by
    simp only [Token.isPunct, Bool.and_eq_true, beq_iff_eq] at hpunct
    exact hpunct.2
  have hkind : brackets.opener.kind = .opener .bracket := by
    rw [← hbracket]
    cases hformed with
    | token _ hgroup =>
      cases hgroup with
      | group hopener _ _ _ => exact hopener
  have hopener : brackets.opener.text = "[" := by
    have hopener := hlexeme (t := brackets.opener) (by rw [htokens]; simp)
    rw [hkind] at hopener
    exact hopener.eq_openText
  obtain ⟨more, hmore⟩ := Layout.exists_inlineTokens_eq brackets.opener
    (TokenTree.flatten brackets.inner ++ [brackets.closer])
  rw [Layout.inline, htokens, Layout.inlineTokens_cons_cons, hmore, hhash, hopener]
  unfold Layout.between
  split
  · exact ⟨"# [", by simp, more, rfl⟩
  · exact ⟨"#[", by simp, more, rfl⟩

end

/-- A generic list is written from its bracket on. -/
theorem ImplBlock.StandsIn.head?_generics {whole : List TokenTree} {impl : ImplBlock}
    (h : impl.StandsIn whole) : ∀ c ∈ (Layout.inline impl.generics).toList.head?, c = '<' := by
  have hangle := h.angle
  cases hgenerics : impl.generics with
  | nil => simp [Layout.inline, Layout.inlineTokens, Piece.inline, Piece.spread]
  | cons tree rest =>
    rw [hgenerics] at hangle
    have hpunct := hangle tree rfl
    cases tree with
    | group d opener inner closer => cases hpunct
    | token t =>
      have htext : t.text = "<" := by
        simp [TokenTree.isPunct, TokenTree.isToken, TokenTree.token?, Token.isPunct] at hpunct
        exact hpunct.2
      obtain ⟨more, hmore⟩ := Layout.exists_inlineTokens_eq t (TokenTree.flatten rest)
      rw [Layout.inline, TokenTree.flatten_token_cons, hmore, htext]
      rintro c ⟨⟩
      rfl

namespace Interface

/-- The interfaces of a source in which nothing is left open fit. -/
theorem fitting_of_interfaces {source attrName : String} {impls : List ImplBlock}
    {interfaces : List Interface} (himpls : ImplBlock.ofSource source attrName = .ok impls)
    (hinterfaces : Generator.interfaces .default impls = .ok interfaces)
    (hclosed : Closed source.toList) : ∀ i ∈ interfaces, i.Fitting := by
  obtain ⟨whole, htrees, hstands⟩ := ImplBlock.standsIn_of_ofSource himpls
  obtain ⟨hfault, -, -⟩ := TokenTree.outcome_of_ofText htrees
  have hshut := hclosed.allShut hfault
  obtain ⟨⟨values, failures⟩, hcollect, h⟩ := exists_of_bind_eq_ok hinterfaces
  obtain ⟨rfl, rfl⟩ := Fault.refuse_eq_ok h
  intro i hi
  obtain ⟨impl, himpl, hof⟩ := exists_of_forall₂ (Fault.collect_eq_ok hcollect).flip i hi
  obtain ⟨hblock, attributes, hled⟩ := hstands impl himpl
  have hgathers := (ofImpl_eq_ok_iff.1 hof).2.2
  have hsame := hgathers.impl_eq
  subst hsame
  refine ⟨hgathers.target_eq, hblock.generics.seals htrees hshut, hblock.head?_generics,
    hblock.closed, hblock.selfType.seals htrees hshut, hblock.whereClause.seals htrees hshut,
    hblock.word, fun a ha => ?_, fun m hm => ?_⟩
  · obtain ⟨hformed, hneighbours⟩ := hled.neighbours a ha
    exact ⟨hformed, hneighbours.seals htrees hshut, hformed.begins htrees hneighbours⟩
  · obtain ⟨method, hmethod, hprepared⟩ := exists_method_of_ofImpl hof hm
    exact PreparedMethod.fitting_of_ofMethod htrees hshut (hblock.methods method hmethod) hprepared

end Interface

end LuaBindings
