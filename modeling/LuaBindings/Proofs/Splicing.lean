import LuaBindings.Proofs.Declaration.Spans

/-!
# Expanding a source

An expanded source is the source with the spans of its marked blocks replaced, in order, by
what is written for them. Everything between the spans is kept (`expand_eq_weave`).
-/

set_option autoImplicit false

namespace LuaBindings

namespace Fault

theorem refuse_eq_ok {α : Type} {failures : List Failure} {a b : α}
    (h : refuse failures a = .ok b) : failures = [] ∧ a = b := by
  unfold refuse at h
  cases hrefuse : Failure.refuse failures a with
  | error f =>
    rw [hrefuse] at h
    cases h
  | ok c =>
    rw [hrefuse] at h
    cases h
    exact Failure.refuse_eq_ok hrefuse

theorem split_eq_ok {α : Type} {x : Except Fault α} {a : α} (h : split x = .ok (.ok a)) :
    x = .ok a := by
  unfold split at h
  split at h
  · cases h
    rfl
  · cases h
  · cases h

/-- Without failures there is a value for every member of the list. -/
theorem collect_eq_ok {α β : Type} {f : α → Except Fault β} {list : List α} {values : List β}
    (h : collect f list = .ok (values, [])) :
    List.Forall₂ (fun a b => f a = .ok b) list values := by
  induction list generalizing values with
  | nil =>
    cases h
    exact .nil
  | cons a rest ih =>
    rw [collect] at h
    obtain ⟨result, hfirst, h⟩ := exists_of_bind_eq_ok h
    obtain ⟨⟨others, failures⟩, hrest, h⟩ := exists_of_bind_eq_ok h
    cases result with
    | error failure => cases h
    | ok b =>
      cases h
      exact .cons (split_eq_ok hfirst) (ih hrest)

end Fault

theorem Interface.impl_of_ofImpl {target : RuntimeTarget} {impl : ImplBlock} {i : Interface}
    (h : ofImpl target impl = .ok i) : i.impl = impl := by
  obtain ⟨options, _, h⟩ := exists_of_bind_eq_ok h
  obtain ⟨prepared, _, h⟩ := exists_of_bind_eq_ok h
  obtain ⟨_, rfl⟩ := Fault.refuse_eq_ok h
  rfl

namespace Generator

theorem impls_of_ofImpl {target : RuntimeTarget} {impls : List ImplBlock}
    {interfaces : List Interface}
    (h : List.Forall₂ (fun impl i => Interface.ofImpl target impl = .ok i) impls interfaces) :
    interfaces.map Interface.impl = impls := by
  induction h with
  | nil => rfl
  | cons hfirst _ ih => rw [List.map_cons, Interface.impl_of_ofImpl hfirst, ih]

theorem impls_of_interfaces {target : RuntimeTarget} {impls : List ImplBlock}
    {interfaces : List Interface} (h : Generator.interfaces target impls = .ok interfaces) :
    interfaces.map Interface.impl = impls := by
  obtain ⟨⟨values, failures⟩, hcollect, h⟩ := exists_of_bind_eq_ok h
  obtain ⟨rfl, rfl⟩ := Fault.refuse_eq_ok h
  exact impls_of_ofImpl (Fault.collect_eq_ok hcollect)

/-- Pieces and what comes between them, in turn; the pieces go first and last. -/
def weave : List (List Char) → List (List Char) → List Char
  | piece :: pieces, insert :: inserts => piece ++ (insert ++ weave pieces inserts)
  | pieces, _ => pieces.flatten

/-- What stands between the spans of the blocks from an offset on. -/
def gaps (source : List Char) (position : Nat) : List ImplBlock → List (List Char)
  | [] => [source.drop position]
  | impl :: rest =>
    slice position impl.start.offset source :: gaps source impl.stop.offset rest

def span (source : List Char) (impl : ImplBlock) : List Char :=
  slice impl.start.offset impl.stop.offset source

theorem slice_append_drop {start stop : Nat} (h : start ≤ stop) (text : List Char) :
    slice start stop text ++ text.drop stop = text.drop start := by
  have hdrop : (text.drop start).drop (stop - start) = text.drop stop := by
    rw [List.drop_drop, Nat.add_sub_cancel' h]
  rw [slice, ← hdrop, List.take_append_drop]

/-- Spans that come one behind the other and what is between them make up the source. -/
theorem weave_gaps_span {source : List Char} {position : Nat} {impls : List ImplBlock}
    (hspans : ∀ impl ∈ impls, impl.start.offset < impl.stop.offset)
    (horder : impls.Pairwise fun a b => a.stop.offset ≤ b.start.offset)
    (hposition : ∀ impl ∈ impls, position ≤ impl.start.offset) :
    weave (gaps source position impls) (impls.map (span source)) = source.drop position := by
  induction impls generalizing position with
  | nil => simp [gaps, weave]
  | cons impl impls ih =>
    obtain ⟨hbehind, horder⟩ := List.pairwise_cons.1 horder
    have hstop := hspans impl List.mem_cons_self
    rw [gaps, List.map_cons, weave, ih (fun i hi => hspans i (by simp [hi])) horder hbehind, span,
      slice_append_drop (Nat.le_of_lt hstop), slice_append_drop (hposition impl List.mem_cons_self)]

/-- Where nothing fails, every block is replaced by what is written for it. -/
theorem spliceFrom_eq_weave {source : List Char} {position : Nat} {interfaces : List Interface}
    (h : (spliceFrom source position interfaces).2 = []) :
    ∃ texts : List String, interfaces.map Interface.expansion = texts.map Except.ok ∧
      (String.join (spliceFrom source position interfaces).1).toList =
        weave (gaps source position (interfaces.map Interface.impl)) (texts.map String.toList) := by
  induction interfaces generalizing position with
  | nil => exact ⟨[], rfl, by simp [spliceFrom, gaps, weave]⟩
  | cons i rest ih =>
    rw [spliceFrom] at h ⊢
    cases hexpansion : i.expansion with
    | error f => simp [hexpansion] at h
    | ok text =>
      simp only [hexpansion] at h ⊢
      obtain ⟨texts, htexts, hjoin⟩ := ih h
      refine ⟨text :: texts, by simp [hexpansion, htexts], ?_⟩
      rw [String.join_cons, String.join_cons, String.toList_append, String.toList_append, hjoin,
        String.toList_ofList]
      rfl

/-- Interfaces in the order of their blocks stay in it. -/
theorem inOrder_eq {interfaces : List Interface}
    (h : (interfaces.map Interface.impl).Pairwise fun a b => a.start.offset ≤ b.start.offset) :
    inOrder interfaces = interfaces := by
  refine List.mergeSort_of_pairwise ?_
  rw [List.pairwise_map] at h
  exact h.imp fun hle => by simpa using hle

theorem expand_eq_weave {source expanded : String} {interfaces : List Interface}
    (horder : (interfaces.map Interface.impl).Pairwise fun a b =>
      a.start.offset ≤ b.start.offset)
    (h : expand source interfaces = .ok expanded) :
    ∃ texts : List String, interfaces.map Interface.expansion = texts.map Except.ok ∧
      expanded.toList =
        weave (gaps source.toList 0 (interfaces.map Interface.impl)) (texts.map String.toList) := by
  rw [expand, inOrder_eq horder] at h
  obtain ⟨hfailures, rfl⟩ := Failure.refuse_eq_ok h
  exact spliceFrom_eq_weave hfailures

end Generator

/-- The blocks of a source are marked, and their spans are not empty, lie in the source, and
come one behind the other. -/
theorem ImplBlock.spans_of_ofSource {source attrName : String} {impls : List ImplBlock}
    (h : ImplBlock.ofSource source attrName = .ok impls) :
    ∃ trees, TokenTree.ofText source.toList = .ok trees ∧
      (∀ impl ∈ impls,
        (∃ siblings, TokenTree.Level (· = .brace) trees siblings ∧
          MarkedIn attrName siblings impl) ∧
        impl.start.offset < impl.stop.offset ∧ impl.stop.offset ≤ source.toList.length ∧
        source.toList[impl.start.offset]? = some '#' ∧
        source.toList[impl.stop.offset - 1]? = some '\x7d') ∧
      impls.Pairwise fun a b => a.stop.offset ≤ b.start.offset := by
  obtain ⟨trees, htext, -, rfl⟩ := ofSource_eq_ok_iff.1 h
  have hlaid := TokenTree.laid_flatten htext
  obtain ⟨_, hformed, _⟩ := TokenTree.outcome_of_ofText htext
  obtain ⟨hspans, horder⟩ := (apart_inTrees attrName hformed).spans hlaid.standsIn hlaid.pairwise
  refine ⟨trees, htext, fun impl himpl => ?_, horder⟩
  obtain ⟨siblings, hlevel, hmarked⟩ := marked_of_mem_inTrees .top (.nil trees) impl himpl
  obtain ⟨hstart, hstop⟩ := hmarked.ends htext hlevel
  exact ⟨⟨siblings, hlevel, hmarked⟩, (hspans impl himpl).1, (hspans impl himpl).2, hstart, hstop⟩

/-- A source expands to what stands between its blocks and the expansions of these. -/
theorem Generator.exists_expansions {source attrName expanded : String}
    {target : RuntimeTarget} {impls : List ImplBlock} {interfaces : List Interface}
    (himpls : ImplBlock.ofSource source attrName = .ok impls)
    (hinterfaces : Generator.interfaces target impls = .ok interfaces)
    (hexpand : expand source interfaces = .ok expanded) :
    ∃ texts : List String, interfaces.map Interface.expansion = texts.map Except.ok ∧
      expanded.toList = weave (gaps source.toList 0 impls) (texts.map String.toList) := by
  obtain ⟨_, _, hmarked, horder⟩ := ImplBlock.spans_of_ofSource himpls
  have hstarts : impls.Pairwise fun a b => a.start.offset ≤ b.start.offset := by
    refine horder.imp_of_mem fun {a b} ha _ hle => ?_
    have := (hmarked a ha).2.1
    omega
  rw [← impls_of_interfaces hinterfaces] at hstarts ⊢
  exact expand_eq_weave hstarts hexpand

/-- Where a source expands, its marked blocks have spans in it that are not empty, do not
overlap and come in order, each from the hash sign of its first attribute to the end of its
body. The expanded source is the source with exactly these spans replaced, in order, by what
is written for the blocks. -/
theorem Generator.expand_replaces_spans {source attrName expanded : String}
    {target : RuntimeTarget} {impls : List ImplBlock} {interfaces : List Interface}
    (himpls : ImplBlock.ofSource source attrName = .ok impls)
    (hinterfaces : Generator.interfaces target impls = .ok interfaces)
    (hexpand : expand source interfaces = .ok expanded) :
    (∃ trees, TokenTree.ofText source.toList = .ok trees ∧
      ∀ impl ∈ impls,
        (∃ siblings, TokenTree.Level (· = .brace) trees siblings ∧
          MarkedIn attrName siblings impl) ∧
        impl.start.offset < impl.stop.offset ∧ impl.stop.offset ≤ source.toList.length ∧
        source.toList[impl.start.offset]? = some '#' ∧
        source.toList[impl.stop.offset - 1]? = some '\x7d') ∧
    (impls.Pairwise fun a b => a.stop.offset ≤ b.start.offset) ∧
    interfaces.map Interface.impl = impls ∧
    ∃ texts : List String, interfaces.map Interface.expansion = texts.map Except.ok ∧
      source.toList = weave (gaps source.toList 0 impls) (impls.map (span source.toList)) ∧
      expanded.toList = weave (gaps source.toList 0 impls) (texts.map String.toList) := by
  obtain ⟨trees, htext, hmarked, horder⟩ := ImplBlock.spans_of_ofSource himpls
  have hspans : ∀ impl ∈ impls, impl.start.offset < impl.stop.offset :=
    fun impl himpl => (hmarked impl himpl).2.1
  obtain ⟨texts, htexts, hweave⟩ := exists_expansions himpls hinterfaces hexpand
  refine ⟨⟨trees, htext, hmarked⟩, horder, impls_of_interfaces hinterfaces, texts, htexts, ?_,
    hweave⟩
  exact (weave_gaps_span hspans horder fun impl _ => Nat.zero_le impl.start.offset).symm

/-- One block inside of braces, behind a nested comment. -/
theorem Generator.expand_replaces_spans_inside :
    ∃ impls interfaces expanded,
      ImplBlock.ofSource "mod m \x7b /* /* */ */ #[lua_methods]\nimpl T \x7b\x7d \x7d"
        "lua_methods" = .ok impls ∧
      impls.length = 1 ∧
      Generator.interfaces .default impls = .ok interfaces ∧
      expand "mod m \x7b /* /* */ */ #[lua_methods]\nimpl T \x7b\x7d \x7d" interfaces =
        .ok expanded ∧
      ∃ texts : List String, interfaces.map Interface.expansion = texts.map Except.ok ∧
        expanded.toList = weave
          (gaps "mod m \x7b /* /* */ */ #[lua_methods]\nimpl T \x7b\x7d \x7d".toList 0 impls)
          (texts.map String.toList) := by
  have hruns : ((ImplBlock.ofSource "mod m \x7b /* /* */ */ #[lua_methods]\nimpl T \x7b\x7d \x7d"
      "lua_methods").toOption.bind fun impls =>
        (Generator.interfaces .default impls).toOption.bind fun interfaces =>
          (expand "mod m \x7b /* /* */ */ #[lua_methods]\nimpl T \x7b\x7d \x7d"
            interfaces).toOption.map fun _ => impls.length) = some 1 := by
    decide +kernel
  obtain ⟨impls, himpls, hruns⟩ := Option.bind_eq_some_iff.1 hruns
  obtain ⟨interfaces, hinterfaces, hruns⟩ := Option.bind_eq_some_iff.1 hruns
  obtain ⟨expanded, hexpand, hlength⟩ := Option.map_eq_some_iff.1 hruns
  have himpls := eq_ok_of_toOption himpls
  have hinterfaces := eq_ok_of_toOption hinterfaces
  have hexpand := eq_ok_of_toOption hexpand
  obtain ⟨_, _, _, texts, htexts, _, hweave⟩ :=
    expand_replaces_spans himpls hinterfaces hexpand
  exact ⟨impls, interfaces, expanded, himpls, hlength, hinterfaces, hexpand, texts, htexts, hweave⟩

end LuaBindings
