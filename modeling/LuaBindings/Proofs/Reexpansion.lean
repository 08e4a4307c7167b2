import LuaBindings.Proofs.Expansion

/-!
# Expanding again

An expanded source has trees, so a search of it finds what a scan of its tokens does: something just
if a block of the source leaves a mark. A block does if it is marked more than once, or if a search
of its head finds something (`Generator.search_expanded_iff`).
-/

set_option autoImplicit false

namespace LuaBindings

open NestingScan

/-- Of several members with a property, leaving out the first leaves one. -/
theorem exists_mem_eraseP_iff {α : Type} {p : α → Bool} {list : List α}
    (h : ∃ a ∈ list, p a = true) :
    (∃ a ∈ list.eraseP p, p a = true) ↔ 2 ≤ list.countP p := by
  obtain ⟨a, ha, hp⟩ := h
  obtain ⟨b, front, back, hfront, hb, rfl, herase⟩ := List.exists_of_eraseP ha hp
  have hnone : front.countP p = 0 := List.countP_eq_zero.2 hfront
  rw [herase, List.countP_append, List.countP_cons_of_pos hb, hnone, ← List.one_le_countP_iff,
    List.countP_append, hnone]
  omega

/-- The first attribute that marks a block is left out, the others are kept. -/
theorem ImplBlock.LedBy.leavesMark_iff {whole : List TokenTree} {attrName : String}
    {impl : ImplBlock} {attributes : List Attribute} (h : impl.LedBy whole attrName attributes) :
    impl.leavesMark attrName = true ↔
      2 ≤ attributes.countP (·.name == attrName) ∨ impl.marksHead attrName = true := by
  have hmarked : ∃ a ∈ attributes, (a.name == attrName) = true := by simpa using h.marked
  rw [leavesMark, Bool.or_eq_true, List.any_eq_true, h.kept, exists_mem_eraseP_iff hmarked]

theorem Found.isEmpty_iff {found : Found} :
    found.isEmpty = true ↔ found.failures = [] ∧ [] = found.impls := by
  rw [isEmpty, Bool.and_eq_true, List.isEmpty_iff, List.isEmpty_iff, and_comm, eq_comm (a := [])]

namespace Generator

/-- Without blocks a source expands to itself. -/
theorem expand_nil (source : String) : expand source [] = .ok source := by
  have hjoin : String.join [String.ofList (source.toList.drop 0)] = source := by
    rw [← String.toList_inj]
    simp
  rw [expand, inOrder_eq (by simp)]
  exact congrArg Except.ok hjoin

section
variable {source attrName expanded : String} {impls : List ImplBlock} {interfaces : List Interface}
  (hclosed : Closed source.toList) (himpls : ImplBlock.ofSource source attrName = .ok impls)
  (hinterfaces : Generator.interfaces .default impls = .ok interfaces)
  (hexpand : expand source interfaces = .ok expanded)
include hclosed himpls hinterfaces hexpand

theorem exists_search_expanded : ∃ trees, TokenTree.ofText expanded.toList = .ok trees ∧
    (!(Found.inTrees attrName trees).isEmpty) = impls.any (·.leavesMark attrName) := by
  obtain ⟨m, hscan⟩ := expand_completes hclosed himpls hinterfaces hexpand
  obtain ⟨trees, htrees⟩ := (MarkScan.completes_nests hscan fun s hs => by rw [hs]).exists_trees
  obtain ⟨-, hformed, hflatten⟩ := TokenTree.outcome_of_ofText htrees
  obtain ⟨-, last, hrun, rfl⟩ := hscan.significant .first
  obtain ⟨m', hsearch⟩ := MarkScan.foldlM_inTrees attrName hformed (g := []) rfl false
  rw [hflatten] at hsearch
  have hsame := Option.some.inj (hsearch.symm.trans hrun)
  exact ⟨trees, htrees, congrArg MarkScan.found hsame⟩

/-- If no comment and no raw string is opened in a source that never closes, and every string
literal closes at a quote that no backslash escapes, then a search of the expanded source finds
nothing, and so it expands to itself, just if no block of the source leaves a mark. A block
leaves one just if it is marked more than once or a search of its head finds something. -/
theorem search_expanded_iff : ∃ whole, TokenTree.ofText source.toList = .ok whole ∧
    (∀ impl ∈ impls, ∃ attributes, impl.LedBy whole attrName attributes ∧
      (impl.leavesMark attrName = true ↔
        2 ≤ attributes.countP (·.name == attrName) ∨ impl.marksHead attrName = true)) ∧
    (ImplBlock.ofSource expanded attrName = .ok [] ↔
      ∀ impl ∈ impls, impl.leavesMark attrName = false) ∧
    expand expanded [] = .ok expanded := by
  obtain ⟨whole, hwhole, hstands⟩ := ImplBlock.standsIn_of_ofSource himpls
  obtain ⟨trees, htrees, hfound⟩ :=
    exists_search_expanded hclosed himpls hinterfaces hexpand
  refine ⟨whole, hwhole, fun impl himpl => ?_, ?_, expand_nil expanded⟩
  · obtain ⟨attributes, hled⟩ := (hstands impl himpl).2
    exact ⟨attributes, hled, hled.leavesMark_iff⟩
  · have hnone : (∀ impl ∈ impls, impl.leavesMark attrName = false) ↔
        (Found.inTrees attrName trees).isEmpty = true := by
      rw [← Bool.not_eq_false', hfound, List.any_eq_false]
      simp
    rw [hnone, Found.isEmpty_iff, ImplBlock.ofSource_eq_ok_iff, htrees]
    constructor
    · rintro ⟨_, ⟨⟩, hempty⟩
      exact hempty
    · exact fun hempty => ⟨trees, rfl, hempty⟩

end

/-- An attribute that is kept, and an impl in a body that is marked like the block. -/
theorem search_expanded_inside :
    let source := "#[cfg(x)] #[lua_methods] impl A \x7b " ++
      "fn f(&self) \x7b #[lua_methods] impl B \x7b\x7d \x7d \x7d"
    ∃ impls interfaces expanded,
      Closed source.toList ∧
      ImplBlock.ofSource source ImplBlock.defaultMarker = .ok impls ∧
      Generator.interfaces .default impls = .ok interfaces ∧
      expand source interfaces = .ok expanded ∧
      impls.length = 1 ∧ ImplBlock.ofSource expanded ImplBlock.defaultMarker = .ok [] := by
  intro source
  have hruns : ((ImplBlock.ofSource source ImplBlock.defaultMarker).toOption.bind fun impls =>
      (Generator.interfaces .default impls).toOption.bind fun interfaces =>
        (expand source interfaces).toOption.map fun _ => (impls.length,
          impls.any fun impl => impl.leavesMark ImplBlock.defaultMarker)) = some (1, false) := by
    decide +kernel
  obtain ⟨impls, himpls, hruns⟩ := Option.bind_eq_some_iff.1 hruns
  obtain ⟨interfaces, hinterfaces, hruns⟩ := Option.bind_eq_some_iff.1 hruns
  obtain ⟨expanded, hexpand, hresult⟩ := Option.map_eq_some_iff.1 hruns
  obtain ⟨hlength, hnone⟩ := Prod.mk.inj hresult
  have hclosed : Closed source.toList := by decide +kernel
  have himpls := eq_ok_of_toOption himpls
  have hinterfaces := eq_ok_of_toOption hinterfaces
  have hexpand := eq_ok_of_toOption hexpand
  obtain ⟨whole, hwhole, hmarks, hiff, hagain⟩ :=
    search_expanded_iff hclosed himpls hinterfaces hexpand
  refine ⟨impls, interfaces, expanded, hclosed, himpls, hinterfaces, hexpand, hlength, hiff.2 ?_⟩
  simpa using List.any_eq_false.1 hnone

/-- A block that is marked twice is found again in what it expands to. -/
theorem expand_leaves_mark :
    let source := "#[lua_methods]\n#[lua_methods]\nimpl A \x7b\x7d\n"
    ∃ impls interfaces expanded again,
      ImplBlock.ofSource source ImplBlock.defaultMarker = .ok impls ∧
      Generator.interfaces .default impls = .ok interfaces ∧
      expand source interfaces = .ok expanded ∧
      ImplBlock.ofSource expanded ImplBlock.defaultMarker = .ok again ∧ again.length = 1 := by
  intro source
  have hruns : ((ImplBlock.ofSource source ImplBlock.defaultMarker).toOption.bind fun impls =>
      (Generator.interfaces .default impls).toOption.bind fun interfaces =>
        (expand source interfaces).toOption.bind fun expanded =>
          (ImplBlock.ofSource expanded ImplBlock.defaultMarker).toOption.map List.length) =
      some 1 := by
    decide +kernel
  obtain ⟨impls, himpls, hruns⟩ := Option.bind_eq_some_iff.1 hruns
  obtain ⟨interfaces, hinterfaces, hruns⟩ := Option.bind_eq_some_iff.1 hruns
  obtain ⟨expanded, hexpand, hruns⟩ := Option.bind_eq_some_iff.1 hruns
  obtain ⟨again, hagain, hlength⟩ := Option.map_eq_some_iff.1 hruns
  exact ⟨impls, interfaces, expanded, again, eq_ok_of_toOption himpls,
    eq_ok_of_toOption hinterfaces, eq_ok_of_toOption hexpand, eq_ok_of_toOption hagain, hlength⟩

end Generator
end LuaBindings
