import Mathlib.Data.List.Pairwise
import LuaBindings.Proofs.FileRun.Sequence

/-!
# Inputs in another order

The order of its inputs does not show in what a run writes, except in the classes that a stub
knows: those of its own input and of the inputs before it (`reordering_keeps`). So a type that is
published by another input is `any` in the stub as long as that input comes later
(`later_class_is_unknown`).
-/

set_option autoImplicit false

namespace LuaBindings.FileRun

open Generator

/-! ### The classes that are known behind inputs -/

/-- A generator that knows the classes of inputs, and besides these what another one knew. -/
structure Knows (later g : Generator) (work : String → Work) (inputs : List String) : Prop where
  target : later.target = g.target
  fixed : later.annotator.fixed = g.annotator.fixed
  published : ∀ input ∈ inputs, ∀ name className,
    published? name (work input).interfaces = some className →
      later.annotator.classNames.get? name = some className
  others : ∀ name, (∀ input ∈ inputs, name ∉ publishedNames (work input).interfaces) →
    later.annotator.classNames.get? name = g.annotator.classNames.get? name

def Apart (work : String → Work) (inputs : List String) : Prop :=
  inputs.Pairwise fun a b => ∀ name ∈ publishedNames (work a).interfaces,
    name ∉ publishedNames (work b).interfaces

instance (work : String → Work) (inputs : List String) : Decidable (Apart work inputs) :=
  inferInstanceAs (Decidable (inputs.Pairwise fun a b =>
    ∀ name ∈ publishedNames (work a).interfaces, name ∉ publishedNames (work b).interfaces))

variable {work : String → Work} {inputs : List String} {input other name className : String}

/-- A name has one publisher. -/
theorem Apart.publisher (h : Apart work inputs) (hinput : input ∈ inputs) (hother : other ∈ inputs)
    (hname : name ∈ publishedNames (work input).interfaces)
    (hname' : name ∈ publishedNames (work other).interfaces) : input = other := by
  have hsymm : Std.Symm fun a b => ∀ name ∈ publishedNames (work a).interfaces,
      name ∉ publishedNames (work b).interfaces := ⟨fun a b hab name hb ha => hab name ha hb⟩
  by_contra hne
  exact List.Pairwise.forall h hinput hother hne name hname hname'

theorem published?_interfacesAll_eq_none
    (h : ∀ input ∈ inputs, name ∉ publishedNames (work input).interfaces) :
    published? name (interfacesAll work inputs) = none := by
  rw [published?_eq_none_iff, publishedNames, interfacesAll, List.filterMap_flatMap]
  intro hmem
  obtain ⟨input, hinput, hname⟩ := List.mem_flatMap.1 hmem
  exact h input hinput hname

theorem published?_interfacesAll (hinput : input ∈ inputs)
    (h : published? name (work input).interfaces = some className)
    (honly : ∀ other ∈ inputs, name ∈ publishedNames (work other).interfaces → other = input) :
    published? name (interfacesAll work inputs) = some className := by
  induction inputs with
  | nil => cases hinput
  | cons first inputs ih =>
    have happend : published? name (interfacesAll work (first :: inputs)) =
        (published? name (interfacesAll work inputs)).or
          (published? name (work first).interfaces) := published?_append name _ _
    rw [List.forall_mem_cons] at honly
    rw [happend]
    by_cases hlater : input ∈ inputs
    · rw [ih hlater honly.2, Option.some_or]
    · have hfirst : input = first := (List.mem_cons.1 hinput).resolve_right hlater
      have hnone : published? name (interfacesAll work inputs) = none :=
        published?_interfacesAll_eq_none fun other hother hname =>
          hlater (honly.2 other hother hname ▸ hother)
      rw [hnone, Option.none_or, ← hfirst, h]

theorem knows_record (h : Apart work inputs) {known : List String}
    (hsubset : ∀ input ∈ known, input ∈ inputs) (g : Generator) :
    Knows (g.record (interfacesAll work known)) g work known := by
  refine ⟨rfl, rfl, fun input hinput name className hpublished => ?_, fun name hname => ?_⟩
  · have hmem : name ∈ publishedNames (work input).interfaces := by
      by_contra hnot
      rw [published?_eq_none_iff.2 hnot] at hpublished
      cases hpublished
    rw [get?_record, published?_interfacesAll hinput hpublished, Option.some_or]
    intro other hother hname
    exact h.publisher (hsubset other hother) (hsubset input hinput) hname hmem
  · rw [get?_record, published?_interfacesAll_eq_none hname, Option.none_or]

/-- Generators agree on a stub if each name in it is known to both or to neither. -/
theorem writes_eq_of_knows {first second g : Generator} {before after : List String}
    (hfirst : Knows first g work before) (hsecond : Knows second g work after)
    (h : ∀ name ∈ Stub.names (work input).interfaces, ∀ other,
      name ∈ publishedNames (work other).interfaces → (other ∈ before ↔ other ∈ after)) :
    (work input).writes first input = (work input).writes second input := by
  have hagrees : first.annotator.AgreesOn second.annotator (Stub.names (work input).interfaces) := by
    refine ⟨hfirst.fixed.trans hsecond.fixed.symm, fun name hname => ?_⟩
    by_cases hknown : ∃ other ∈ before, name ∈ publishedNames (work other).interfaces
    · obtain ⟨other, hother, hpublishes⟩ := hknown
      obtain ⟨className, hclass⟩ := Option.ne_none_iff_exists'.1
        (mt published?_eq_none_iff.1 (not_not_intro hpublishes))
      rw [hfirst.published other hother name className hclass,
        hsecond.published other ((h name hname other hpublishes).1 hother) name className hclass]
    · have hbefore : ∀ other ∈ before, name ∉ publishedNames (work other).interfaces :=
        fun other hother hpublishes => hknown ⟨other, hother, hpublishes⟩
      rw [hfirst.others name hbefore, hsecond.others name fun other hother hpublishes =>
        hbefore other ((h name hname other hpublishes).2 hother) hpublishes]
  cases hwork : work input with
  | failed interfaces failure => rfl
  | skipped => rfl
  | written interfaces output expansion stub =>
    rw [hwork] at hagrees
    have hagrees : first.annotator.AgreesOn second.annotator (Stub.names interfaces) := hagrees
    rw [Work.writes, Work.writes, Generator.stub, Generator.stub, Stub.text_congr hagrees]

/-! ### The order of the inputs -/

/-- What the inputs of a run come to where the directories have been made. -/
def plan (g : Generator) (files : Files) (roots : Roots) : String → Work :=
  workOf g.target roots (prepared g files roots).files

/-- No path is written twice, no input is written to, and no two inputs publish a class for the
same name. -/
structure Separate (g : Generator) (files : Files) (roots : Roots) (inputs : List String) :
    Prop where
  distinct : (inputs.flatMap fun input => (plan g files roots input).paths).Nodup
  untouched : Untouched (plan g files roots) (prepared g files roots).files inputs
  apart : Apart (plan g files roots) inputs

variable {g : Generator} {files : Files} {roots : Roots} {reordered : List String}

theorem Separate.perm (h : Separate g files roots inputs) (hperm : inputs.Perm reordered) :
    Separate g files roots reordered :=
  ⟨(hperm.flatMap_right _).nodup_iff.1 h.distinct, h.untouched.perm hperm,
    (hperm.pairwise_iff fun hab name hb ha => hab name ha hb).1 h.apart⟩

theorem planned_of_run (huntouched : Untouched (plan g files roots)
      (prepared g files roots).files inputs)
    (h : Succeeds ((start g files).run roots inputs)) :
    (prepared g files roots).halt = none ∧
      Planned g.target roots (prepared g files roots).files (plan g files roots) inputs := by
  obtain ⟨log, hrun⟩ := run_eq g files roots inputs
  obtain ⟨hgenerator, hfailed⟩ := generator_prepared g files roots
  rw [hrun] at h
  obtain ⟨hrunning, hnone⟩ := h
  have hrunning : (inputs.foldl (takeInput roots) (prepared g files roots)).halt = none := hrunning
  constructor
  · cases inputs with
    | nil => exact hrunning
    | cons input rest => exact (exists_work_of_running hrunning).1
  · exact planned_of_succeeds (.refl _ _) (congrArg Generator.target hgenerator) huntouched
      hrunning (hnone.trans hfailed.symm)

/-- A run over planned inputs succeeds, and leaves what they write. -/
theorem run_of_planned (hrunning : (prepared g files roots).halt = none)
    (h : Planned g.target roots (prepared g files roots).files (plan g files roots) inputs) :
    Succeeds ((start g files).run roots inputs) ∧
      ((start g files).run roots inputs).files =
        (prepared g files roots).files.putAll (writesAll (plan g files roots) g inputs) := by
  have hgenerator := (generator_prepared g files roots).1
  have hcarried := foldl_takeInput_of_planned h hrunning (congrArg Generator.target hgenerator)
    (.refl _ _)
  rw [hgenerator] at hcarried
  exact run_of_carried hcarried

/-- What an input writes behind others stays. -/
theorem content?_of_writes (hdistinct : (inputs.flatMap fun x => (work x).paths).Nodup)
    {before after : List String} (hinputs : inputs = before ++ input :: after)
    {entry : Path × List UInt8}
    (hentry : entry ∈ (work input).writes
      (g.record (interfacesAll work (before ++ [input]))) input) :
    (files.putAll (writesAll work g inputs)).content? entry.1 = some entry.2 := by
  refine Files.content?_putAll_of_mem (by rwa [map_fst_writesAll]) ?_ files
  have hrecord : (g.record (interfacesAll work before)).record (work input).interfaces =
      g.record (interfacesAll work (before ++ [input])) := by
    rw [record_record, interfacesAll, interfacesAll, List.flatMap_append, List.flatMap_singleton]
  rw [hinputs, writesAll_append, writesAll, hrecord]
  exact List.mem_append_right _ (List.mem_append_left _ hentry)

/-- What files hold of an input that was taken behind others: what it writes with a generator that
knows their classes and its own. -/
structure WrittenBehind (g : Generator) (work : String → Work) (before : List String)
    (input : String) (files : Files) (later : Generator) : Prop where
  knows : Knows later g work (before ++ [input])
  contents : ∀ entry ∈ (work input).writes later input, files.content? entry.1 = some entry.2

/-- The inputs up to a given one are among the inputs. -/
theorem mem_of_mem_upTo {before after : List String} (hinputs : inputs = before ++ input :: after)
    (h : other ∈ before ++ [input]) : other ∈ inputs := by
  rw [hinputs, List.append_cons]
  exact List.mem_append_left _ h

theorem writtenBehind_putAll (hdistinct : (inputs.flatMap fun x => (work x).paths).Nodup)
    (hapart : Apart work inputs) {before after : List String}
    (hinputs : inputs = before ++ input :: after) (g : Generator) (files : Files) :
    WrittenBehind g work before input (files.putAll (writesAll work g inputs))
      (g.record (interfacesAll work (before ++ [input]))) :=
  ⟨knows_record hapart (fun _ => mem_of_mem_upTo hinputs) g,
    fun _ hentry => content?_of_writes hdistinct hinputs hentry⟩

theorem exists_mem_writes {w : Work} {path : Path} (hpath : path ∈ w.paths)
    (hstub : w.stub? ≠ some path) :
    ∃ content, ∀ g input, (path, content) ∈ w.writes g input := by
  cases w with
  | failed interfaces failure => cases hpath
  | skipped => cases hpath
  | written interfaces output expansion stub =>
    rcases List.mem_cons.1 hpath with rfl | hpath
    · exact ⟨_, fun g input => List.mem_cons_self⟩
    · exact absurd (Option.mem_toList.1 hpath) hstub

/-- What is no stub holds the same behind all inputs, whatever their order. -/
theorem content?_putAll_writesAll
    (hdistinct : (inputs.flatMap fun x => (work x).paths).Nodup) (hperm : inputs.Perm reordered)
    {path : Path} (hpath : ∀ input ∈ inputs, (work input).stub? ≠ some path) :
    (files.putAll (writesAll work g reordered)).content? path =
      (files.putAll (writesAll work g inputs)).content? path := by
  have hdistinct' : (reordered.flatMap fun x => (work x).paths).Nodup :=
    (hperm.flatMap_right _).nodup_iff.1 hdistinct
  by_cases hmem : path ∈ inputs.flatMap fun x => (work x).paths
  · obtain ⟨input, hinput, hmem⟩ := List.mem_flatMap.1 hmem
    obtain ⟨content, hwrites⟩ := exists_mem_writes hmem (hpath input hinput)
    obtain ⟨before, after, hinputs⟩ := List.append_of_mem hinput
    obtain ⟨before', after', hreordered⟩ := List.append_of_mem (hperm.mem_iff.1 hinput)
    exact (content?_of_writes hdistinct' hreordered (hwrites _ input)).trans
      (content?_of_writes hdistinct hinputs (hwrites _ input)).symm
  · have hmem' : path ∉ reordered.flatMap fun x => (work x).paths :=
      fun h => hmem ((hperm.flatMap_right _).mem_iff.2 h)
    rw [Files.content?_putAll_of_notMem (by rwa [map_fst_writesAll]),
      Files.content?_putAll_of_notMem (by rwa [map_fst_writesAll])]

/-- Where a run over separate inputs succeeds, it succeeds in every order of them. What is
written for an input depends on the order through the classes that its stub knows: those of its
own and of the inputs before it. So the stub is the same if none of its names is published by an
input that comes before it in the one order and behind it in the other, and all else is the same
anyway. -/
theorem reordering_keeps (hseparate : Separate g files roots inputs)
    (hperm : inputs.Perm reordered) (hsucceeds : Succeeds ((start g files).run roots inputs)) :
    Succeeds ((start g files).run roots reordered) ∧
      (∀ path, (∀ input ∈ inputs, (plan g files roots input).stub? ≠ some path) →
        ((start g files).run roots reordered).files.content? path =
          ((start g files).run roots inputs).files.content? path) ∧
      ∀ input before after before' after',
        inputs = before ++ input :: after → reordered = before' ++ input :: after' →
        ∃ first second : Generator,
          WrittenBehind g (plan g files roots) before input
            ((start g files).run roots inputs).files first ∧
          WrittenBehind g (plan g files roots) before' input
            ((start g files).run roots reordered).files second ∧
          ((∀ name ∈ Stub.names (plan g files roots input).interfaces, ∀ other ∈ inputs,
              name ∈ publishedNames (plan g files roots other).interfaces →
                (other ∈ before ↔ other ∈ before')) →
            (plan g files roots input).writes first input =
              (plan g files roots input).writes second input) := by
  obtain ⟨hrunning, hplanned⟩ := planned_of_run hseparate.untouched hsucceeds
  have hseparate' := hseparate.perm hperm
  obtain ⟨-, hfiles⟩ := run_of_planned hrunning hplanned
  obtain ⟨hsucceeds', hfiles'⟩ := run_of_planned hrunning (hplanned.perm hperm)
  rw [hfiles, hfiles']
  refine ⟨hsucceeds', fun path hpath => ?_, ?_⟩
  · exact content?_putAll_writesAll hseparate.distinct hperm hpath
  · rintro input before after before' after' hinputs hreordered
    have hfirst := writtenBehind_putAll hseparate.distinct hseparate.apart hinputs g
      (prepared g files roots).files
    have hsecond := writtenBehind_putAll hseparate'.distinct hseparate'.apart hreordered g
      (prepared g files roots).files
    refine ⟨_, _, hfirst, hsecond, fun h =>
      writes_eq_of_knows hfirst.knows hsecond.knows fun name hname other hpublishes => ?_⟩
    by_cases hother : other ∈ inputs
    · rw [List.mem_append, List.mem_append, h name hname other hother hpublishes]
    · exact iff_of_false (mt (mem_of_mem_upTo hinputs) hother)
        fun hmem => hother (hperm.mem_iff.2 (mem_of_mem_upTo hreordered hmem))

/-- Two sources, of which the first names the type that the second publishes. -/
def namingNext : Files :=
  ⟨[(["a.rs"], "#[lua_methods]\nimpl A \x7b\n    fn f(x: B) \x7b\x7d\n\x7d\n".toUTF8.toList),
    (["b.rs"], "#[lua_methods]\nimpl B \x7b\x7d\n".toUTF8.toList)], []⟩

/-- A run over sources, with the stubs in a directory of their own. -/
def runOver (files : Files) (inputs : List String) : FileRun :=
  (start (.fresh .default []) files).run ⟨".", some "types"⟩ inputs

theorem separate_namingNext :
    Separate (.fresh .default []) namingNext ⟨".", some "types"⟩ ["a.rs", "b.rs"] :=
  ⟨by decide +kernel, by decide +kernel, by decide +kernel⟩

theorem reordering_keeps_bindings :
    (runOver namingNext ["b.rs", "a.rs"]).Succeeds ∧
      (runOver namingNext ["b.rs", "a.rs"]).files.content? ["a_lua.rs"] =
        (runOver namingNext ["a.rs", "b.rs"]).files.content? ["a_lua.rs"] := by
  obtain ⟨hsucceeds, hcontents, -⟩ := reordering_keeps separate_namingNext
    (List.Perm.swap "b.rs" "a.rs" []) (by decide +kernel)
  exact ⟨hsucceeds, hcontents ["a_lua.rs"] (by decide +kernel)⟩

/-- The class of the second source is not known in the stub of the first. -/
theorem later_class_is_unknown :
    Separate (.fresh .default []) namingNext ⟨".", some "types"⟩ ["a.rs", "b.rs"] ∧
      (runOver namingNext ["a.rs", "b.rs"]).Succeeds ∧
      (runOver namingNext ["b.rs", "a.rs"]).Succeeds ∧
      (runOver namingNext ["a.rs", "b.rs"]).files.content? ["types", "a.lua"] =
        some ("---@meta\n-- LuaCATS type definitions for a\n-- Auto-generated, do not edit\n\n" ++
          "---@class A\nA = \x7b\x7d\n\n---@param x any\nfunction A:f(x) end\n").toUTF8.toList ∧
      (runOver namingNext ["b.rs", "a.rs"]).files.content? ["types", "a.lua"] =
        some ("---@meta\n-- LuaCATS type definitions for a\n-- Auto-generated, do not edit\n\n" ++
          "---@class A\nA = \x7b\x7d\n\n---@param x B\nfunction A:f(x) end\n").toUTF8.toList := by
  exact ⟨separate_namingNext, by decide +kernel⟩

end LuaBindings.FileRun
