import LuaBindings.Proofs.Declaration.Items
import LuaBindings.Proofs.Splicing
import Mathlib.Data.List.Flatten

/-!
# The phases of a source

A source is searched for marked blocks, the blocks are made interfaces, and these are
written out. Each phase collects what fails in it, block after block, but a phase with
failures is the last. So blocks that fail in the same phase are reported together, and of
blocks that fail in different phases only those of the earliest are (`reports_earliest`).
-/

set_option autoImplicit false

namespace LuaBindings

/-- What can fail in the processing of a source, in the order of the processing. -/
inductive Phase where
  | search
  | interfaces
  | expansion
  deriving DecidableEq, Repr

def Phase.index : Phase → Nat
  | search => 0
  | interfaces => 1
  | expansion => 2

theorem Phase.forall_iff {motive : Phase → Prop} :
    (∀ p, motive p) ↔ motive .search ∧ motive .interfaces ∧ motive .expansion :=
  ⟨fun h => ⟨h _, h _, h _⟩, fun h p => by cases p <;> simp [h]⟩

/-! ### Collected failures -/

theorem Failure.refuse_of_ne_nil {α : Type} {failures : List Failure} (h : failures ≠ []) (a : α) :
    ∃ f, refuse failures a = .error f ∧ f.toList = failures.flatMap toList := by
  obtain ⟨first, others, rfl⟩ := List.exists_cons_of_ne_nil h
  exact ⟨⟨first.first, first.others ++ others.flatMap toList⟩, rfl, rfl⟩

theorem Failure.flatMap_toList_eq_nil_iff {failures : List Failure} :
    failures.flatMap toList = [] ↔ failures = [] := by
  cases failures <;> simp [toList]

namespace Fault

variable {α β : Type}

/-- The failure of a result; none if there is a value, or a fault that is no failure. -/
def failure? : Except Fault α → Option Failure
  | .error (.diagnosed f) => some f
  | _ => none

def diagnostics (result : Except Fault α) : List Diagnostic :=
  (failure? result).toList.flatMap Failure.toList

theorem collect_eq {f : α → Except Fault β} {list : List α}
    (h : ∀ a ∈ list, f a ≠ .error .codePoint) :
    collect f list = .ok (list.filterMap fun a => (f a).toOption,
      list.filterMap fun a => failure? (f a)) := by
  induction list with
  | nil => rfl
  | cons a rest ih =>
    have hfirst := h a List.mem_cons_self
    rw [collect, ih fun b hb => h b (List.mem_cons_of_mem a hb)]
    cases hresult : f a with
    | ok b => simp [hresult, split, failure?, Except.toOption, bind, Except.bind, pure, Except.pure]
    | error fault =>
      cases fault with
      | codePoint => exact absurd hresult hfirst
      | diagnosed failure =>
        simp [hresult, split, failure?, Except.toOption, bind, Except.bind, pure, Except.pure]

end Fault

/-! ### What a search has found, phase by phase -/

namespace Found

variable (target : RuntimeTarget)

def failuresIn (found : Found) : Phase → List Failure
  | .search => found.failures
  | .interfaces => found.impls.filterMap fun impl => Fault.failure? (Interface.ofImpl target impl)
  | .expansion =>
    (found.impls.filterMap fun impl => (Interface.ofImpl target impl).toOption).filterMap fun i =>
      Fault.failure? (Fault.ofExcept i.expansion)

def stopsIn (found : Found) : Option Phase :=
  [Phase.search, .interfaces, .expansion].find? fun phase =>
    !(found.failuresIn target phase).isEmpty

def IsSingle (found : Found) : Prop := found.impls.length + found.failures.length = 1

instance (found : Found) : Decidable found.IsSingle :=
  inferInstanceAs (Decidable (_ = _))

theorem stopsIn_eq_none_iff (found : Found) :
    found.stopsIn target = none ↔ ∀ p, found.failuresIn target p = [] := by
  simp [stopsIn, Phase.forall_iff]

theorem stopsIn_eq_some_iff (found : Found) (p : Phase) :
    found.stopsIn target = some p ↔
      found.failuresIn target p ≠ [] ∧ ∀ q, q.index < p.index → found.failuresIn target q = [] := by
  by_cases hsearch : found.failuresIn target .search = [] <;>
    by_cases hinterfaces : found.failuresIn target .interfaces = [] <;>
    by_cases hexpansion : found.failuresIn target .expansion = [] <;>
    cases p <;>
    simp [stopsIn, Phase.forall_iff, Phase.index, hsearch, hinterfaces, hexpansion]

theorem failuresIn_append (a b : Found) (phase : Phase) :
    (a.append b).failuresIn target phase = a.failuresIn target phase ++ b.failuresIn target phase := by
  cases phase <;> simp [failuresIn, append]

theorem failuresIn_joined (founds : List Found) (phase : Phase) :
    (joined founds).failuresIn target phase = founds.flatMap (·.failuresIn target phase) := by
  induction founds with
  | nil => cases phase <;> rfl
  | cons found founds ih =>
    rw [joined, List.foldr_cons, failuresIn_append, List.flatMap_cons]
    exact congrArg _ ih

end Found

/-! ### The processing of a source -/

def Found.Of (source : String) (found : Found) : Prop :=
  ∃ trees, TokenTree.ofSource source = .ok trees ∧
    Found.inTrees ImplBlock.defaultMarker trees = found

namespace Generator

variable (g : Generator) (moduleName : String) {source : String} {found : Found}

/-- What a source is expanded to and the stub of its interfaces. -/
def bindings (source : String) : Except Fault (String × String) := do
  let interfaces ← g.read source
  let expansion ← Fault.ofExcept (expand source interfaces)
  return (expansion, (g.record interfaces).stub moduleName interfaces)

def stopsIn (source : String) : Option Phase :=
  match ImplBlock.ofSource source ImplBlock.defaultMarker with
  | .error _ => some .search
  | .ok impls =>
    match interfaces g.target impls with
    | .error _ => some .interfaces
    | .ok interfaces =>
      match expand source interfaces with
      | .error _ => some .expansion
      | .ok _ => none

theorem failures_spliceFrom (text : List Char) (position : Nat) (interfaces : List Interface) :
    (spliceFrom text position interfaces).2 =
      interfaces.filterMap fun i => Fault.failure? (Fault.ofExcept i.expansion) := by
  induction interfaces generalizing position with
  | nil => rfl
  | cons i rest ih =>
    rw [spliceFrom]
    cases hexpansion : i.expansion <;>
      simp [hexpansion, ih, Fault.failure?, Fault.ofExcept]

/-- The blocks of a source are written out in their order, and what fails is refused. -/
theorem expand_eq_refuse {impls : List ImplBlock} {interfaces : List Interface}
    (himpls : ImplBlock.ofSource source ImplBlock.defaultMarker = .ok impls)
    (hsame : interfaces.map Interface.impl = impls) :
    ∃ text, expand source interfaces = Failure.refuse
      (interfaces.filterMap fun i => Fault.failure? (Fault.ofExcept i.expansion)) text := by
  obtain ⟨trees, _, hspans, horder⟩ := ImplBlock.spans_of_ofSource himpls
  have hstarts : (interfaces.map Interface.impl).Pairwise fun a b =>
      a.start.offset ≤ b.start.offset := by
    rw [hsame]
    refine horder.imp_of_mem fun {a b} ha _ hle => ?_
    have := (hspans a ha).2.1
    omega
  rw [expand, inOrder_eq hstarts, ← failures_spliceFrom source.toList 0]
  exact ⟨_, rfl⟩

theorem stopsIn_of_search (hfound : Found.Of source found) (h : found.failures ≠ []) :
    g.stopsIn source = some .search ∧
      Fault.diagnostics (g.bindings moduleName source) =
        found.failures.flatMap Failure.toList := by
  obtain ⟨trees, htrees, rfl⟩ := hfound
  obtain ⟨f, hf, hlist⟩ := Failure.refuse_of_ne_nil h (Found.inTrees ImplBlock.defaultMarker trees).impls
  have hsource : ImplBlock.ofSource source ImplBlock.defaultMarker = .error f := by
    rw [ImplBlock.ofSource, htrees]
    exact hf
  constructor
  · rw [stopsIn, hsource]
  · rw [bindings, read, hsource]
    simpa [Fault.ofExcept, Fault.diagnostics, Fault.failure?, bind, Except.bind] using hlist

section Searched

variable (hfound : Found.Of source found) (hsearch : found.failures = [])
  (hcode : ∀ impl ∈ found.impls, Interface.ofImpl g.target impl ≠ .error .codePoint)
include hfound hsearch hcode

theorem interfaces_of_found :
    ImplBlock.ofSource source ImplBlock.defaultMarker = .ok found.impls ∧
      interfaces g.target found.impls =
        Fault.refuse (found.failuresIn g.target .interfaces)
          (found.impls.filterMap fun impl => (Interface.ofImpl g.target impl).toOption) := by
  obtain ⟨trees, htrees, rfl⟩ := hfound
  constructor
  · rw [ImplBlock.ofSource, htrees]
    dsimp only
    rw [hsearch]
    rfl
  · rw [interfaces, Fault.collect_eq hcode]
    rfl

theorem stopsIn_of_interfaces (h : found.failuresIn g.target .interfaces ≠ []) :
    g.stopsIn source = some .interfaces ∧
      Fault.diagnostics (g.bindings moduleName source) =
        (found.failuresIn g.target .interfaces).flatMap Failure.toList := by
  obtain ⟨hsource, hinterfaces⟩ := interfaces_of_found g hfound hsearch hcode
  obtain ⟨f, hf, hlist⟩ := Failure.refuse_of_ne_nil h
    (found.impls.filterMap fun impl => (Interface.ofImpl g.target impl).toOption)
  rw [Fault.refuse, hf] at hinterfaces
  constructor
  · rw [stopsIn, hsource]
    dsimp only
    rw [hinterfaces]
    rfl
  · rw [bindings, read, hsource, ← hlist]
    change Fault.diagnostics (interfaces g.target found.impls >>= _) = _
    rw [hinterfaces]
    exact List.append_nil _

theorem stopsIn_of_expansion (h : found.failuresIn g.target .interfaces = []) :
    g.stopsIn source =
        (if found.failuresIn g.target .expansion = [] then none else some .expansion) ∧
      Fault.diagnostics (g.bindings moduleName source) =
        (found.failuresIn g.target .expansion).flatMap Failure.toList := by
  obtain ⟨hsource, hinterfaces⟩ := interfaces_of_found g hfound hsearch hcode
  rw [h] at hinterfaces
  obtain ⟨text, hexpand⟩ := expand_eq_refuse hsource (impls_of_interfaces hinterfaces)
  rw [show List.filterMap _ (List.filterMap _ _) = found.failuresIn g.target .expansion from rfl]
    at hexpand
  rw [stopsIn, bindings, read, hsource]
  change _ ∧ Fault.diagnostics (interfaces g.target found.impls >>= _) = _
  dsimp only
  rw [hinterfaces]
  change (match expand source _ with | .error _ => some Phase.expansion | .ok _ => none) = _ ∧
    Fault.diagnostics (Fault.ofExcept (expand source _) >>= _) = _
  rw [hexpand]
  by_cases hnil : found.failuresIn g.target .expansion = []
  · rw [hnil, if_pos rfl]
    exact ⟨rfl, rfl⟩
  · obtain ⟨f, hf, hlist⟩ := Failure.refuse_of_ne_nil hnil text
    rw [if_neg hnil, hf, ← hlist]
    exact ⟨rfl, List.append_nil _⟩

end Searched

/-- A source stops in the first phase with failures, and these are what is reported. -/
theorem stopsIn_eq (hfound : Found.Of source found)
    (hcode : found.failures = [] →
      ∀ impl ∈ found.impls, Interface.ofImpl g.target impl ≠ .error .codePoint) :
    g.stopsIn source = found.stopsIn g.target ∧
      Fault.diagnostics (g.bindings moduleName source) =
        ((found.stopsIn g.target).toList.flatMap (found.failuresIn g.target)).flatMap
          Failure.toList := by
  by_cases hsearch : found.failures = []
  · have hcode := hcode hsearch
    have hnone : found.failuresIn g.target .search = [] := hsearch
    by_cases hinterfaces : found.failuresIn g.target .interfaces = []
    · obtain ⟨hstops, hreport⟩ :=
        g.stopsIn_of_expansion moduleName hfound hsearch hcode hinterfaces
      by_cases hexpansion : found.failuresIn g.target .expansion = []
      · rw [if_pos hexpansion] at hstops
        rw [hexpansion] at hreport
        simp [hstops, hreport, Found.stopsIn, hnone, hinterfaces, hexpansion]
      · rw [if_neg hexpansion] at hstops
        simp [hstops, hreport, Found.stopsIn, hnone, hinterfaces, hexpansion]
    · obtain ⟨hstops, hreport⟩ :=
        g.stopsIn_of_interfaces moduleName hfound hsearch hcode hinterfaces
      simp [hstops, hreport, Found.stopsIn, hnone, hinterfaces]
  · have hsome : found.failuresIn g.target .search ≠ [] := hsearch
    obtain ⟨hstops, hreport⟩ := g.stopsIn_of_search moduleName hfound hsearch
    have hstop : found.stopsIn g.target = some .search := by simp [Found.stopsIn, hsome]
    rw [hstops, hreport, hstop]
    exact ⟨rfl, by simp [Found.failuresIn]⟩

end Generator

/-! ### Blocks on their own -/

namespace Found

variable {found : Found}

theorem IsSingle.cases (h : found.IsSingle) :
    (∃ impl, found = ⟨[impl], []⟩) ∨ ∃ f, found = ⟨[], [f]⟩ := by
  obtain ⟨impls, failures⟩ := found
  rcases Nat.add_eq_one_iff.1 h with ⟨himpls, hfailures⟩ | ⟨himpls, hfailures⟩
  · obtain ⟨f, rfl⟩ := List.length_eq_one_iff.1 hfailures
    obtain rfl := List.length_eq_zero_iff.1 himpls
    exact .inr ⟨f, rfl⟩
  · obtain ⟨impl, rfl⟩ := List.length_eq_one_iff.1 himpls
    obtain rfl := List.length_eq_zero_iff.1 hfailures
    exact .inl ⟨impl, rfl⟩

/-- A block or a failure fails in one phase at most. -/
theorem IsSingle.eq_of_failuresIn (h : found.IsSingle) (target : RuntimeTarget) {p q : Phase}
    (hp : found.failuresIn target p ≠ []) (hq : found.failuresIn target q ≠ []) : p = q := by
  rcases h.cases with ⟨impl, rfl⟩ | ⟨f, rfl⟩
  · cases hresult : Interface.ofImpl target impl with
    | ok i => cases p <;> cases q <;> simp_all [failuresIn, Fault.failure?, Except.toOption]
    | error fault => cases p <;> cases q <;> simp_all [failuresIn, Except.toOption]
  · cases p <;> cases q <;> simp_all [failuresIn]

theorem IsSingle.stopsIn_eq_some_iff (h : found.IsSingle) (target : RuntimeTarget) (p : Phase) :
    found.stopsIn target = some p ↔ found.failuresIn target p ≠ [] := by
  rw [Found.stopsIn_eq_some_iff]
  refine ⟨fun hstops => hstops.1, fun hp => ⟨hp, fun q hq => ?_⟩⟩
  by_contra hne
  rw [h.eq_of_failuresIn target hne hp] at hq
  exact Nat.lt_irrefl _ hq

end Found

/-! ### The texts of the items of a source -/

namespace TokenTree

theorem formed_of_ofSource {source : String} {trees : List TokenTree}
    (h : ofSource source = .ok trees) : Formed trees :=
  (outcome_of_ofText (ofText_of_ofSource h)).2.1

/-- Trees that can be read are known by their tokens. -/
theorem Formed.eq_of_flatten {xs ys : List TokenTree} (hx : Formed xs) (hy : Formed ys)
    (h : flatten xs = flatten ys) : xs = ys := by
  have hreadx := ofTokens_eq_ok_iff.2 ⟨hx, rfl⟩
  have hready := ofTokens_eq_ok_iff.2 ⟨hy, rfl⟩
  rw [h, hready] at hreadx
  exact (Except.ok.inj hreadx).symm

end TokenTree

/-- The trees hold one block and nothing of another, whatever comes behind them. -/
def Found.StandAlone (trees : List TokenTree) : Prop :=
  TokenTree.EndsItem trees ∧ Complete ImplBlock.defaultMarker trees ∧
    (inTrees ImplBlock.defaultMarker trees).IsSingle

instance (trees : List TokenTree) : Decidable (Found.StandAlone trees) :=
  inferInstanceAs (Decidable (_ ∧ _))

/-- A text with the tokens of an item, each in its place, and nothing else. -/
structure Part (part : String) (item : List TokenTree) : Prop where
  reads : ∃ trees, TokenTree.ofSource part = .ok trees ∧
    TokenTree.flatten trees = TokenTree.flatten item
  standAlone : Found.StandAlone item

theorem Part.of_any {part : String} {item : List TokenTree}
    (h : (TokenTree.ofSource part).toOption.any (fun trees =>
      decide (TokenTree.flatten trees = TokenTree.flatten item ∧ Found.StandAlone item)) = true) :
    Part part item := by
  obtain ⟨trees, htrees, h⟩ := (Option.any_eq_true _ _).1 h
  obtain ⟨hflatten, hstands⟩ := of_decide_eq_true h
  exact ⟨⟨trees, eq_ok_of_toOption htrees, hflatten⟩, hstands⟩

theorem exists_parts {source : String} {parts : List String}
    (h : (TokenTree.ofSource source).toOption.any (fun trees =>
      decide (parts.length = (Found.items ImplBlock.defaultMarker trees).length) &&
        (parts.zip (Found.items ImplBlock.defaultMarker trees)).all fun pair =>
          (TokenTree.ofSource pair.1).toOption.any fun trees =>
            decide (TokenTree.flatten trees = TokenTree.flatten pair.2 ∧
              Found.StandAlone pair.2)) = true) :
    ∃ trees, TokenTree.ofSource source = .ok trees ∧
      List.Forall₂ Part parts (Found.items ImplBlock.defaultMarker trees) := by
  obtain ⟨trees, htrees, h⟩ := (Option.any_eq_true _ _).1 h
  obtain ⟨hlength, hall⟩ := Bool.and_eq_true_iff.1 h
  refine ⟨trees, eq_ok_of_toOption htrees, List.forall₂_iff_zip.2 ⟨of_decide_eq_true hlength, ?_⟩⟩
  exact fun hpair => .of_any (List.all_eq_true.1 hall _ hpair)

theorem standAlone_of_parts {parts : List String} {items : List (List TokenTree)}
    (hparts : List.Forall₂ Part parts items) : ∀ item ∈ items, Found.StandAlone item := by
  induction hparts with
  | nil => exact List.forall_mem_nil _
  | cons hfirst _ ih => exact List.forall_mem_cons.2 ⟨hfirst.standAlone, ih⟩

theorem Part.found {part : String} {item : List TokenTree} (h : Part part item)
    (hformed : TokenTree.Formed item) :
    Found.Of part (Found.inTrees ImplBlock.defaultMarker item) := by
  obtain ⟨trees, htrees, hflatten⟩ := h.reads
  have heq := (TokenTree.formed_of_ofSource htrees).eq_of_flatten hformed hflatten
  exact ⟨trees, htrees, by rw [heq]⟩

/-- What is found in a source is what is found in the texts of its marked items. -/
theorem founds_of_parts {source : String} {trees : List TokenTree} {parts : List String}
    (hsource : TokenTree.ofSource source = .ok trees)
    (hparts : List.Forall₂ Part parts (Found.items ImplBlock.defaultMarker trees)) :
    ∃ founds, List.Forall₂ Found.Of parts founds ∧ Found.Of source (Found.joined founds) ∧
      ∀ found ∈ founds, found.IsSingle := by
  have hformed : ∀ item ∈ Found.items ImplBlock.defaultMarker trees, TokenTree.Formed item :=
    Found.formed_of_mem_items (TokenTree.formed_of_ofSource hsource)
  have hstands := standAlone_of_parts hparts
  refine ⟨(Found.items ImplBlock.defaultMarker trees).map (Found.inTrees ImplBlock.defaultMarker),
    ?_, ⟨trees, hsource, ?_⟩, List.forall_mem_map.2 fun item hitem => (hstands item hitem).2.2⟩
  · rw [List.forall₂_map_right_iff]
    generalize Found.items ImplBlock.defaultMarker trees = items at hparts hformed
    induction hparts with
    | nil => exact .nil
    | cons hfirst _ ih =>
      obtain ⟨hitem, hrest⟩ := List.forall_mem_cons.1 hformed
      exact .cons (hfirst.found hitem) (ih hrest)
  · exact Found.inTrees_eq_joined fun item hitem =>
      ⟨(hstands item hitem).1, (hstands item hitem).2.1⟩

namespace Generator

variable (g : Generator) (moduleName : String) {source part : String} {found : Found}
  {parts : List String} {founds : List Found}

/-- What is reported of a part is what fails of it in the phase that it stops in. -/
structure Reports (part : String) (found : Found) : Prop where
  stops : g.stopsIn part = found.stopsIn g.target
  failures (p : Phase) : (found.failuresIn g.target p).flatMap Failure.toList =
    if g.stopsIn part = some p then Fault.diagnostics (g.bindings moduleName part) else []
  silent_iff : Fault.diagnostics (g.bindings moduleName part) = [] ↔ g.stopsIn part = none
  ne_codePoint : ∀ impl ∈ found.impls, Interface.ofImpl g.target impl ≠ .error .codePoint

theorem ofImpl_ne_codePoint {impl : ImplBlock} (hfound : Found.Of part ⟨[impl], []⟩)
    (hcode : g.bindings moduleName part ≠ .error .codePoint) :
    Interface.ofImpl g.target impl ≠ .error .codePoint := by
  intro hfault
  obtain ⟨trees, htrees, hfound⟩ := hfound
  refine hcode ?_
  have hsource : ImplBlock.ofSource part ImplBlock.defaultMarker = .ok [impl] := by
    rw [ImplBlock.ofSource, htrees]
    dsimp only
    rw [hfound]
    rfl
  rw [bindings, read, hsource]
  change interfaces g.target [impl] >>= _ = _
  rw [interfaces, Fault.collect, hfault]
  rfl

theorem reports_of_single (hfound : Found.Of part found) (hsingle : found.IsSingle)
    (hcode : g.bindings moduleName part ≠ .error .codePoint) : g.Reports moduleName part found := by
  have hcode : ∀ impl ∈ found.impls, Interface.ofImpl g.target impl ≠ .error .codePoint := by
    rcases hsingle.cases with ⟨impl, rfl⟩ | ⟨f, rfl⟩
    · exact List.forall_mem_singleton.2 (g.ofImpl_ne_codePoint moduleName hfound hcode)
    · exact List.forall_mem_nil _
  obtain ⟨hstops, hreport⟩ := g.stopsIn_eq moduleName hfound fun _ => hcode
  refine ⟨hstops, fun p => ?_, ?_, hcode⟩
  · have hiff := hsingle.stopsIn_eq_some_iff g.target p
    rw [hstops, hreport]
    split
    · rename_i hsome
      simp [hsome]
    · rename_i hsome
      rw [hiff, not_not] at hsome
      rw [hsome, List.flatMap_nil]
  · rw [hstops, hreport]
    cases hstop : found.stopsIn g.target with
    | none => simp
    | some p =>
      have hne := (hsingle.stopsIn_eq_some_iff g.target p).1 hstop
      rw [Option.toList_some, List.flatMap_singleton, Failure.flatMap_toList_eq_nil_iff]
      exact iff_of_false hne (Option.some_ne_none p)

theorem forall_reports (hfounds : List.Forall₂ Found.Of parts founds)
    (hsingle : ∀ found ∈ founds, found.IsSingle)
    (hcode : ∀ part ∈ parts, g.bindings moduleName part ≠ .error .codePoint) :
    List.Forall₂ (g.Reports moduleName) parts founds := by
  induction hfounds with
  | nil => exact .nil
  | cons hfirst _ ih =>
    obtain ⟨hone, hsingle⟩ := List.forall_mem_cons.1 hsingle
    obtain ⟨hcodeFirst, hcode⟩ := List.forall_mem_cons.1 hcode
    exact .cons (g.reports_of_single moduleName hfirst hone hcodeFirst) (ih hsingle hcode)

theorem flatMap_failuresIn (h : List.Forall₂ (g.Reports moduleName) parts founds) (p : Phase) :
    ((Found.joined founds).failuresIn g.target p).flatMap Failure.toList =
      (parts.filter fun part => g.stopsIn part = some p).flatMap
        (fun part => Fault.diagnostics (g.bindings moduleName part)) := by
  rw [Found.failuresIn_joined]
  induction h with
  | nil => rfl
  | cons hfirst _ ih =>
    rw [List.flatMap_cons, List.flatMap_append, ih, hfirst.failures p, List.filter_cons]
    split <;> simp_all

theorem silent_iff_of_reports (h : List.Forall₂ (g.Reports moduleName) parts founds) :
    ∀ part ∈ parts, Fault.diagnostics (g.bindings moduleName part) = [] ↔
      g.stopsIn part = none := by
  induction h with
  | nil => exact List.forall_mem_nil _
  | cons hfirst _ ih => exact List.forall_mem_cons.2 ⟨hfirst.silent_iff, ih⟩

theorem ne_codePoint_of_reports (h : List.Forall₂ (g.Reports moduleName) parts founds) :
    ∀ impl ∈ (Found.joined founds).impls, Interface.ofImpl g.target impl ≠ .error .codePoint := by
  induction h with
  | nil => exact List.forall_mem_nil _
  | cons hfirst _ ih => exact List.forall_mem_append.2 ⟨hfirst.ne_codePoint, ih⟩

/-- What is left out has nothing in it just if leaving it out makes no difference. -/
theorem flatMap_filter_eq_iff {α β : Type} (p : α → Bool) (f : α → List β) (list : List α) :
    (list.filter p).flatMap f = list.flatMap f ↔ ∀ a ∈ list, f a = [] ∨ p a = true := by
  induction list with
  | nil => simp
  | cons a list ih =>
    rw [List.forall_mem_cons, ← ih]
    cases hp : p a with
    | true => simp [hp]
    | false =>
      have hsublist : ((list.filter p).flatMap f).Sublist (list.flatMap f) :=
        List.filter_sublist.flatMap f
      rw [List.filter_cons_of_neg (by simp [hp]), List.flatMap_cons]
      constructor
      · intro heq
        have hlength := congrArg List.length heq
        have hle := hsublist.length_le
        rw [List.length_append] at hlength
        have hnil : f a = [] := List.length_eq_zero_iff.1 (by omega)
        rw [hnil] at heq
        exact ⟨.inl hnil, heq⟩
      · rintro ⟨hnil | htrue, heq⟩
        · rw [hnil, heq, List.nil_append]
        · cases htrue

/-- The marked items of a source, at any depth of braces, are reported as they are on their own,
each in a text that holds nothing else: those that fail in the phase in which the source stops, and
it is the earliest in which one fails. So nothing is hidden just if no two items fail in different
phases. -/
theorem reports_earliest {trees : List TokenTree} (hsource : TokenTree.ofSource source = .ok trees)
    (hparts : List.Forall₂ Part parts (Found.items ImplBlock.defaultMarker trees))
    (hcode : ∀ part ∈ parts, g.bindings moduleName part ≠ .error .codePoint) :
    Fault.diagnostics (g.bindings moduleName source) =
        (parts.filter fun part => g.stopsIn part = g.stopsIn source).flatMap
          (fun part => Fault.diagnostics (g.bindings moduleName part)) ∧
      (∀ part ∈ parts, ∀ p, g.stopsIn part = some p →
        ∃ q, g.stopsIn source = some q ∧ q.index ≤ p.index) ∧
      (Fault.diagnostics (g.bindings moduleName source) =
          parts.flatMap (fun part => Fault.diagnostics (g.bindings moduleName part)) ↔
        ∀ part ∈ parts, g.stopsIn part = none ∨ g.stopsIn part = g.stopsIn source) := by
  obtain ⟨founds, hfounds, hsource, hsingle⟩ := founds_of_parts hsource hparts
  have hreports := g.forall_reports moduleName hfounds hsingle hcode
  have hsilent := g.silent_iff_of_reports moduleName hreports
  obtain ⟨hstops, hreport⟩ := g.stopsIn_eq moduleName hsource fun _ =>
    g.ne_codePoint_of_reports moduleName hreports
  have hearliest : ∀ part ∈ parts, ∀ p, g.stopsIn part = some p →
      ∃ q, g.stopsIn source = some q ∧ q.index ≤ p.index := by
    intro part hpart p hp
    -- What a part reports is among the failures of the whole in the phase in which it stops.
    have hfails : (Found.joined founds).failuresIn g.target p ≠ [] := by
      intro hnil
      have hflat := g.flatMap_failuresIn moduleName hreports p
      rw [hnil, List.flatMap_nil, eq_comm, List.flatMap_eq_nil_iff] at hflat
      have hnone := (hsilent part hpart).1
        (hflat part (List.mem_filter.2 ⟨hpart, by simpa using hp⟩))
      rw [hp] at hnone
      cases hnone
    rw [hstops]
    cases hstop : (Found.joined founds).stopsIn g.target with
    | none => exact absurd ((Found.stopsIn_eq_none_iff g.target _).1 hstop p) hfails
    | some q =>
      have hbefore := ((Found.stopsIn_eq_some_iff g.target _ q).1 hstop).2 p
      exact ⟨q, rfl, Nat.le_of_not_lt fun hlt => hfails (hbefore hlt)⟩
  have hfirst : Fault.diagnostics (g.bindings moduleName source) =
      (parts.filter fun part => g.stopsIn part = g.stopsIn source).flatMap
        (fun part => Fault.diagnostics (g.bindings moduleName part)) := by
    cases hstop : g.stopsIn source with
    | some p =>
      rw [hreport, ← hstops, hstop, Option.toList_some, List.flatMap_singleton]
      exact g.flatMap_failuresIn moduleName hreports p
    | none =>
      rw [hreport, ← hstops, hstop]
      refine (List.flatMap_eq_nil_iff.2 fun part hpart => ?_).symm
      obtain ⟨hpart, hnone⟩ := List.mem_filter.1 hpart
      exact (hsilent part hpart).2 (by simpa using hnone)
  refine ⟨hfirst, hearliest, ?_⟩
  rw [hfirst, flatMap_filter_eq_iff]
  refine forall₂_congr fun part hpart => ?_
  rw [hsilent part hpart, decide_eq_true_iff]

theorem ne_codePoint_of_diagnostics {α : Type} {result : Except Fault α}
    (h : Fault.diagnostics result ≠ []) : result ≠ .error .codePoint := by
  rintro rfl
  exact h rfl

/-- A block in braces and one behind them, whose parameters have no types, are reported together. -/
theorem reports_earliest_pair :
    let front := "#[lua_methods]impl A\x7bfn f(x)\x7b\x7d\x7d"
    let back := "#[lua_methods]impl B\x7bfn g(y)\x7b\x7d\x7d"
    let source := "mod m\x7b" ++ front ++ "\x7d" ++ back
    let parts := ["".pushn ' ' 6 ++ front, "".pushn ' ' (7 + front.length) ++ back]
    let bindings := (fresh .default []).bindings "pair"
    ∃ trees, TokenTree.ofSource source = .ok trees ∧
      List.Forall₂ Part parts (Found.items ImplBlock.defaultMarker trees) ∧
      (∀ part ∈ parts, bindings part ≠ .error .codePoint) ∧
      (fresh .default []).stopsIn source = some .search ∧
      Fault.diagnostics (bindings source) =
        parts.flatMap fun part => Fault.diagnostics (bindings part) := by
  intro front back source parts bindings
  obtain ⟨trees, hsource, hparts⟩ : ∃ trees, TokenTree.ofSource source = .ok trees ∧
      List.Forall₂ Part parts (Found.items ImplBlock.defaultMarker trees) :=
    exists_parts (by decide +kernel)
  have hcode : ∀ part ∈ parts, bindings part ≠ .error .codePoint := by
    refine List.forall_mem_cons.2 ⟨ne_codePoint_of_diagnostics (by decide +kernel), ?_⟩
    exact List.forall_mem_singleton.2 (ne_codePoint_of_diagnostics (by decide +kernel))
  have hreports := (fresh .default []).reports_earliest "pair" hsource hparts hcode
  exact ⟨trees, hsource, hparts, hcode, by decide +kernel, hreports.2.2.2 (by decide +kernel)⟩

/-- A block whose method cannot be read hides the unknown option of the block before it. -/
theorem reports_earliest_hidden :
    let front := "#[lua_methods(a)]impl A\x7b\x7d"
    let back := "#[lua_methods]impl B\x7bfn g(x)\x7b\x7d\x7d"
    let source := front ++ back
    let parts := [front, "".pushn ' ' front.length ++ back]
    let bindings := (fresh .default []).bindings "pair"
    (∃ trees, TokenTree.ofSource source = .ok trees ∧
      List.Forall₂ Part parts (Found.items ImplBlock.defaultMarker trees)) ∧
      Fault.diagnostics (bindings source) = [⟨.expected ":", some 1, some 52⟩] ∧
      parts.flatMap (fun part => Fault.diagnostics (bindings part)) =
        [⟨.unknownOption "a", some 1, some 15⟩, ⟨.expected ":", some 1, some 52⟩] := by
  intro front back source parts bindings
  exact ⟨exists_parts (by decide +kernel), by decide +kernel, by decide +kernel⟩

end Generator
end LuaBindings
