import LuaBindings.Proofs.Interface.Fitting
import LuaBindings.Proofs.Splicing

/-!
# Scanning an expanded source

Outside of the blocks that a search finds there are no marks, so a scan of the tokens finds none in
what is kept of the source (`unmarked_inTrees`). The expansion of a block brings a scan from
wherever the block begins to where it ends. So a scan of an expanded source comes to its end and
has found something just if one of the blocks leaves a mark (`expand_completes`). In particular the
source is lexed to its end and balanced, unless something is left open in it
(`expand_has_trees`).
-/

set_option autoImplicit false

namespace LuaBindings

open NestingScan
open MarkScan (Mode Passes isSearched)
open TokenTree (flatten Formed)

/-! ### Between the blocks -/

/-- Blocks stand one behind the other at places that are searched, and a scan that goes on behind
each of them as if it had begun there finds nothing between them. -/
inductive Unmarked (attrName : String) (behind : List Delimiter) (last : Mode) :
    List Delimiter → Mode → List Token → List ImplBlock → Prop
  | nil {g : List Delimiter} {m : Mode} {tokens : List Token} :
    Passes attrName g m tokens behind last → Unmarked attrName behind last g m tokens []
  | cons {g middle : List Delimiter} {m between : Mode} {before inner after : List Token}
    {opener closer : Token} {impl : ImplBlock} {impls : List ImplBlock} :
    Passes attrName g m before middle between → isSearched middle = true → between.IsResting →
    impl.start = opener.start → impl.stop = closer.stop →
    Unmarked attrName behind last middle .idle after impls →
    Unmarked attrName behind last g m (before ++ opener :: (inner ++ closer :: after))
      (impl :: impls)

namespace Unmarked

variable {attrName : String} {behind middle g : List Delimiter} {last between m : Mode}

theorem prepend {front tokens : List Token} {impls : List ImplBlock}
    (hfront : Passes attrName g m front middle between)
    (h : Unmarked attrName behind last middle between tokens impls) :
    Unmarked attrName behind last g m (front ++ tokens) impls := by
  cases h with
  | nil hpasses => exact .nil (hfront.append hpasses)
  | cons hbefore hsearched hresting hstart hstop hafter =>
    rw [← List.append_assoc]
    exact .cons (hfront.append hbefore) hsearched hresting hstart hstop hafter

theorem append {xs ys : List Token} {impls more : List ImplBlock}
    (hx : Unmarked attrName middle between g m xs impls)
    (hy : Unmarked attrName behind last middle between ys more) :
    Unmarked attrName behind last g m (xs ++ ys) (impls ++ more) := by
  induction hx with
  | nil hpasses => exact hy.prepend hpasses
  | cons hbefore hsearched hresting hstart hstop _ ih =>
    rw [List.append_assoc, List.cons_append, List.append_assoc, List.cons_append]
    exact .cons hbefore hsearched hresting hstart hstop ih

/-- Behind a hash sign that begins no attribute. -/
theorem of_idle {tokens : List Token} {impls : List ImplBlock}
    (h : Unmarked attrName behind last g .idle tokens impls) (hne : tokens ≠ [])
    (hm : m.IsResting) (hnot : ∀ t ∈ tokens.head?, m = .idle ∨ t.kind ≠ .opener .bracket) :
    Unmarked attrName behind last g m tokens impls := by
  cases h with
  | nil hpasses => exact .nil (hpasses.of_idle hne hm hnot)
  | @cons _ middle _ between before _ _ _ _ _ _ hbefore hsearched hresting hstart hstop hafter =>
    cases before with
    | nil =>
      cases hbefore false
      exact .cons (fun _ => rfl) hsearched hm hstart hstop hafter
    | cons t before =>
      have hfirst := hbefore.of_idle (List.cons_ne_nil t before) hm (by simpa using hnot)
      exact .cons hfirst hsearched hresting hstart hstop hafter

end Unmarked

open Found (inTrees) in
theorem unmarked_inTrees (attrName : String) {trees : List TokenTree} (hformed : Formed trees)
    (hfailures : (inTrees attrName trees).failures = []) {g : List Delimiter}
    (hg : isSearched g = true) :
    ∃ m, Unmarked attrName g m g .idle (flatten trees) (inTrees attrName trees).impls := by
  fun_induction inTrees attrName trees generalizing g with
  | case1 => exact ⟨.idle, .nil fun _ => rfl⟩
  | case2 tree rest after hleading _ _ ihinner ihrest =>
    have hrest : Formed rest := hformed.of_part (List.suffix_cons tree rest).isInfix
    obtain ⟨hinside, hbehind⟩ := List.append_eq_nil_iff.1 hfailures
    obtain ⟨m, hm⟩ := ihrest hrest hbehind hg
    cases tree with
    | token t =>
      have hinner : inTrees attrName (Found.inBraces (.token t)) = Found.empty :=
        Found.inTrees_nil attrName
      obtain ⟨first, hresting, hpasses, hnot⟩ := MarkScan.passes_token hformed hleading hg
      rw [hinner, TokenTree.flatten_token_cons, ← List.singleton_append]
      cases rest with
      | nil =>
        rw [Found.inTrees_nil]
        exact ⟨first, .nil hpasses⟩
      | cons tree rest =>
        have hne := TokenTree.flatten_ne_nil (List.cons_ne_nil tree rest)
        exact ⟨m, (hm.of_idle hne hresting hnot).prepend hpasses⟩
    | group d opener inner closer =>
      obtain ⟨hinner, hcloser⟩ := hformed.of_group
      have hopener : opener.kind = .opener d := by
        cases hformed with
        | group hopener _ _ _ => exact hopener
      rw [← List.singleton_append, TokenTree.flatten_append]
      refine ⟨m, Unmarked.append ?_ hm⟩
      by_cases hd : d = .brace
      · subst hd
        have hbrace : isSearched (.brace :: g) = true := hg
        obtain ⟨last, hlast⟩ := ihinner hinner hinside hbrace
        have hclosed := hlast.append (.nil (MarkScan.passes_closer hcloser hg last))
        rw [List.append_nil] at hclosed
        rw [TokenTree.flatten_group_cons, TokenTree.flatten_nil, ← List.singleton_append]
        exact hclosed.prepend (MarkScan.passes_opener hopener hg)
      · have hnone : Found.inBraces (.group d opener inner closer) = [] := by
          simp [Found.inBraces, TokenTree.group?, hd]
        rw [hnone, Found.inTrees_nil]
        exact .nil (MarkScan.passes_group hopener hcloser hinner hd hg)
  | case3 tree rest first others after hleading _ attributes hnone =>
    rename_i ih
    obtain ⟨htrees, hattributes, -⟩ := Attribute.leading_eq hleading
    rw [htrees] at hformed ⊢
    obtain ⟨hfront, hafter⟩ := hformed.of_append
    obtain ⟨m, hm⟩ := ih hafter hfailures hg
    rw [TokenTree.flatten_append]
    refine ⟨m, hm.prepend fun f => ?_⟩
    have hany : (first :: others).any (·.name == attrName) = false := by
      rw [List.any_eq_false]
      exact List.find?_eq_none.1 hnone
    rw [MarkScan.foldlM_attributes hattributes hfront hg, hany, Bool.or_false]
  | case4 tree rest first others after hleading _ attributes marker hsome anchor reader impl c
      hread =>
    rename_i ih
    obtain ⟨block, opener, closer, inner, hsplit, hrun, hstart, hstop⟩ :=
      ImplBlock.exists_run hleading hread
    rw [hsplit] at hformed
    obtain ⟨m, hm⟩ := ih hformed.of_append.2 hfailures hg
    have htokens : flatten (tree :: rest) =
        [] ++ opener :: (inner ++ closer :: flatten (after.drop c.position)) := by
      rw [hsplit, TokenTree.flatten_append, hrun]
      simp
    rw [htokens]
    exact ⟨m, .cons (fun _ => rfl) hg (.inl rfl) hstart hstop hm⟩
  | case5 => cases hfailures

namespace Generator

/-- The text may come where a scan is at rest, and leaves a mark behind just if it is to. -/
def StandsFor (attrName : String) (leaves : Bool) (text : List Char) : Prop :=
  ∀ ⦃P : MarkScan → Prop⦄ ⦃g : List Delimiter⦄ ⦃m : Mode⦄ ⦃f : Bool⦄ ⦃rest : List Char⦄,
    isSearched g = true → m.IsResting →
    Completes (MarkScan.next attrName) (AtEnd P) ⟨g, .idle, f || leaves⟩ rest →
      Joins (MarkScan.next attrName) (AtEnd P) ⟨g, m, f⟩ (text ++ rest)

theorem slice_of_drop_eq {source front rest : List Char} {offset : Nat}
    (h : source.drop offset = front ++ rest) :
    slice offset (offset + front.length) source = front ∧
      source.drop (offset + front.length) = rest := by
  rw [slice, ← List.drop_drop, h, Nat.add_sub_cancel_left]
  exact ⟨List.take_left, List.drop_left⟩

/-- Blocks may be replaced by texts that stand for them. -/
theorem completes_weave {attrName : String} {source text : List Char} {here : Location}
    {tokens significant : List Token} {impls : List ImplBlock} {inserts : List (List Char)}
    {behind g : List Delimiter} {last m : Mode} {f : Bool}
    (hcut : Cut here text tokens none) (htext : source.drop here.offset = text)
    (hshut : AllShut text) (htokens : (tokens.filter fun t => !t.kind.isTrivia) = significant)
    (hunmarked : Unmarked attrName behind last g m significant impls)
    (hstands : List.Forall₂ (fun impl insert =>
      StandsFor attrName (impl.leavesMark attrName) insert) impls inserts) :
    Completes (MarkScan.next attrName)
      (AtEnd (· = ⟨behind, last, f || impls.any (·.leavesMark attrName)⟩)) ⟨g, m, f⟩
      (weave (gaps source here.offset impls) inserts) := by
  induction hunmarked generalizing here text tokens inserts f with
  | nil hpasses =>
    cases hstands
    have hweave : weave (gaps source here.offset []) [] = text := by simp [gaps, weave, htext]
    rw [hweave, List.any_nil, Bool.or_false]
    exact hcut.completes (htokens ▸ hpasses f) ⟨rfl, rfl⟩
  | @cons g middle m between before inner after opener closer impl impls hbefore hsearched
      hresting hstart hstop _ ih =>
    obtain ⟨insert, inserts, hinsert, hothers, rfl⟩ := List.forall₂_cons_left_iff.1 hstands
    obtain ⟨front, rest, _, rfl, hreads, hsealed, hopener, hopened, hkind, hnext, hcut,
      hinside⟩ := hcut.exists_sealed hshut htokens
    have hshut := (hshut.behind hreads).behind (reads_token hkind hnext)
    obtain ⟨body, back, _, rfl, hreads, -, hcloser, hclosed, hkind, hnext, hcut, hafter⟩ :=
      hcut.exists_sealed hshut hinside
    have hshut := (hshut.behind hreads).behind (reads_token hkind hnext)
    obtain ⟨hgap, htext⟩ := slice_of_drop_eq htext
    obtain ⟨-, htext⟩ := slice_of_drop_eq htext
    obtain ⟨-, htext⟩ := slice_of_drop_eq htext
    obtain ⟨-, htext⟩ := slice_of_drop_eq htext
    rw [← hopener, ← hopened, ← hcloser, ← hclosed] at htext
    have hrest := ih hcut htext hshut hafter hothers (f := f || impl.leavesMark attrName)
    rw [Bool.or_assoc, ← List.any_cons] at hrest
    rw [gaps, hstart, hstop, hopener, hgap, weave]
    exact hsealed.completes (hbefore f) (hinsert hsearched hresting hrest)

theorem standsFor_expansion {i : Interface} {text : String} (hfitting : i.Fitting)
    (htext : i.expansion = .ok text) (attrName : String) :
    StandsFor attrName (i.impl.leavesMark attrName) text.toList :=
  fun _ _ _ _ _ hg hm hrest => hfitting.joins_expansion htext hg hm hrest

section
variable {source attrName expanded : String} {impls : List ImplBlock} {interfaces : List Interface}
  (hclosed : Closed source.toList) (himpls : ImplBlock.ofSource source attrName = .ok impls)
  (hinterfaces : Generator.interfaces .default impls = .ok interfaces)
  (hexpand : expand source interfaces = .ok expanded)
include hclosed himpls hinterfaces hexpand

/-- A scan of the expanded source comes to its end with nothing open, and has found something just
if a block leaves a mark. -/
theorem expand_completes : ∃ m, Completes (MarkScan.next attrName)
    (AtEnd (· = ⟨[], m, impls.any (·.leavesMark attrName)⟩)) ⟨[], .idle, false⟩
    expanded.toList := by
  obtain ⟨texts, htexts, hweave⟩ := exists_expansions himpls hinterfaces hexpand
  have hfitting := Interface.fitting_of_interfaces himpls hinterfaces hclosed
  have hstands : List.Forall₂ (fun impl insert =>
      StandsFor attrName (impl.leavesMark attrName) insert) impls (texts.map String.toList) := by
    have hequal := List.forall₂_eq_eq_eq ▸ htexts
    rw [List.forall₂_map_left_iff, List.forall₂_map_right_iff] at hequal
    rw [← impls_of_interfaces hinterfaces, List.forall₂_map_left_iff, List.forall₂_map_right_iff]
    refine ((List.forall₂_and_left _ _).2 ⟨hfitting, hequal⟩).imp fun i text hi => ?_
    exact standsFor_expansion hi.1 hi.2 attrName
  obtain ⟨whole, htrees, hnone, rfl⟩ := ImplBlock.ofSource_eq_ok_iff.1 himpls
  obtain ⟨hfault, hformed, hflatten⟩ := TokenTree.outcome_of_ofText htrees
  have hcut : Cut .first source.toList (ofText source.toList).tokens none :=
    hfault ▸ cut_scanFrom .first source.toList
  obtain ⟨m, hunmarked⟩ := unmarked_inTrees attrName hformed hnone (g := []) rfl
  have hscan := completes_weave (f := false) hcut rfl (hclosed.allShut hfault) hflatten.symm
    hunmarked hstands
  rw [Bool.false_or] at hscan
  rw [hweave]
  exact ⟨m, hscan⟩

/-- If no comment and no raw string is opened in a source that never closes, and every string
literal closes at a quote that no backslash escapes, then what the source expands to is lexed to
its end and balanced. -/
theorem expand_has_trees : ∃ trees, TokenTree.ofText expanded.toList = .ok trees := by
  obtain ⟨m, hcompletes⟩ := expand_completes hclosed himpls hinterfaces hexpand
  exact (MarkScan.completes_nests hcompletes fun s hs => by rw [hs]).exists_trees

end

/-- Braces and the openings of comments in a renaming, a raw string and a comment. -/
theorem expand_has_trees_literals :
    let source := "#[cfg(x)]\n#[lua_methods]\nimpl<'a> T<'a> where u8: Copy \x7b\n" ++
      "#[lua(rename = \"\\\"\x7d\")]\nfn f(&self, n: &mut U) -> Vec<u8> \x7b\n" ++
      "r#\"/* \x7b\n\"\"#; self.g() /* \x7b */\n\x7d\n\x7d\n"
    ∃ impls interfaces expanded,
      Closed source.toList ∧
      ImplBlock.ofSource source ImplBlock.defaultMarker = .ok impls ∧
      Generator.interfaces .default impls = .ok interfaces ∧
      expand source interfaces = .ok expanded ∧
      ∃ trees, TokenTree.ofText expanded.toList = .ok trees := by
  intro source
  have hruns : ((ImplBlock.ofSource source ImplBlock.defaultMarker).toOption.bind fun impls =>
      (Generator.interfaces .default impls).toOption.bind fun interfaces =>
        (expand source interfaces).toOption.map fun _ => ()) = some () := by
    decide +kernel
  obtain ⟨impls, himpls, hruns⟩ := Option.bind_eq_some_iff.1 hruns
  obtain ⟨interfaces, hinterfaces, hruns⟩ := Option.bind_eq_some_iff.1 hruns
  obtain ⟨expanded, hexpand, -⟩ := Option.map_eq_some_iff.1 hruns
  have hclosed : Closed source.toList := by decide +kernel
  have himpls := eq_ok_of_toOption himpls
  have hinterfaces := eq_ok_of_toOption hinterfaces
  have hexpand := eq_ok_of_toOption hexpand
  exact ⟨impls, interfaces, expanded, hclosed, himpls, hinterfaces, hexpand,
    expand_has_trees hclosed himpls hinterfaces hexpand⟩

/-- The literal of a backslash closes at a quote that is escaped, as long as no quote comes behind
it. In the expansion a name is quoted behind it. -/
theorem expand_has_no_trees_backslash :
    let source := "#[lua_methods]\n#[doc = cr\"\\\"]\nimpl T \x7b fn f(&self) \x7b\x7d \x7d"
    (∀ t ∈ (ofText source.toList).tokens,
        ¬Terminal.NeverCloses (source.toList.drop t.start.offset)) ∧
      (∀ t ∈ (ofText source.toList).tokens,
        Terminal.opensRaw (source.toList.drop t.start.offset) = true → t.kind = .rawString) ∧
      ∃ impls interfaces expanded,
        ImplBlock.ofSource source ImplBlock.defaultMarker = .ok impls ∧
        Generator.interfaces .default impls = .ok interfaces ∧
        expand source interfaces = .ok expanded ∧
        ¬∃ trees, TokenTree.ofText expanded.toList = .ok trees := by
  intro source
  have hruns : ((ImplBlock.ofSource source ImplBlock.defaultMarker).toOption.bind fun impls =>
      (Generator.interfaces .default impls).toOption.bind fun interfaces =>
        (expand source interfaces).toOption.map fun expanded =>
          (TokenTree.ofText expanded.toList).toOption.isSome) = some false := by
    decide +kernel
  obtain ⟨impls, himpls, hruns⟩ := Option.bind_eq_some_iff.1 hruns
  obtain ⟨interfaces, hinterfaces, hruns⟩ := Option.bind_eq_some_iff.1 hruns
  obtain ⟨expanded, hexpand, hnone⟩ := Option.map_eq_some_iff.1 hruns
  refine ⟨by decide +kernel, by decide +kernel, impls, interfaces, expanded,
    eq_ok_of_toOption himpls, eq_ok_of_toOption hinterfaces, eq_ok_of_toOption hexpand, ?_⟩
  rintro ⟨trees, htrees⟩
  rw [htrees] at hnone
  cases hnone

end LuaBindings.Generator
