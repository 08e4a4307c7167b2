import Mathlib.Data.List.Nodup
import LuaBindings.Proofs.FileRun.Reordering

/-!
# Inputs and outputs that are written over

The bindings and the stub of an input are named by its stem, wherever it lies. So inputs with one
stem write to the same paths, and an input may lie where the bindings of another one go. A run
keeps all inputs and all that it writes just if no path is to hold two contents in this way
(`kept_iff_consistent`).
-/

set_option autoImplicit false

namespace LuaBindings.FileRun

open Text.PathName (join stem slash_notMem_stem)

/-! ### Where outputs lie -/

variable {target : RuntimeTarget} {roots : Roots} {files : Files} {path : Path}
  {input other : String} {v w : Work}

theorem getLast?_of_place {directory suffix : String} (hslash : '/' ∉ suffix.toList)
    (hlong : 2 < suffix.toList.length)
    (h : files.place? (join directory (stem input ++ suffix)) = some path) :
    path.getLast? = some (stem input ++ suffix) := by
  have hshort : ∀ name : String, name.toList.length ≤ 2 → stem input ++ suffix ≠ name := by
    rintro name hname rfl
    rw [String.toList_append, List.length_append] at hname
    omega
  have hmember : '/' ∉ (stem input ++ suffix).toList := by
    rw [String.toList_append, List.mem_append, not_or]
    exact ⟨slash_notMem_stem input, hslash⟩
  obtain ⟨base, rfl⟩ := Files.locate_join hmember
    ⟨hshort "" (by decide), hshort "." (by decide), hshort ".." (by decide)⟩
    (Files.locate_of_place h)
  exact List.getLast?_concat

theorem places_of_work (h : work? target roots files input = some w) (hwritten : w.isWritten) :
    ∃ interfaces output expansion stub, w = .written interfaces output expansion stub ∧
      files.place? (outputName roots input) = some output ∧
      stubPlace? roots files input = some stub := by
  obtain ⟨source, interfaces, -, hemit⟩ := exists_emitWork h hwritten
  obtain ⟨f, -, rfl⟩ | ⟨expansion, output, stub, -, houtput, hstub, rfl⟩ := emitWork_cases hemit
  · cases hwritten
  · exact ⟨interfaces, output, expansion, stub, rfl, houtput, hstub⟩

theorem getLast?_of_stubPlace (h : stubPlace? roots files input = some (some path)) :
    path.getLast? = some (stem input ++ ".lua") := by
  rw [stubPlace?] at h
  cases hstubs : roots.stubs with
  | none =>
    rw [hstubs] at h
    cases h
  | some directory =>
    rw [hstubs] at h
    obtain ⟨place, hplace, heq⟩ := Option.map_eq_some_iff.1 h
    cases heq
    exact getLast?_of_place (by decide) (by decide) hplace

/-- The last component of a path that is written to. -/
theorem getLast?_of_work (h : work? target roots files input = some w) (hpath : path ∈ w.paths) :
    path.getLast? = some (stem input ++ "_lua.rs") ∨ path.getLast? = some (stem input ++ ".lua") := by
  have hwritten : w.isWritten := by
    cases w with
    | written interfaces output expansion stub => rfl
    | failed interfaces failure => cases hpath
    | skipped => cases hpath
  obtain ⟨interfaces, output, expansion, stub, rfl, houtput, hstub⟩ := places_of_work h hwritten
  rcases List.mem_cons.1 hpath with rfl | hpath
  · exact .inl (getLast?_of_place (by decide) (by decide) houtput)
  · rw [Option.mem_toList.1 hpath] at hstub
    exact .inr (getLast?_of_stubPlace hstub)

theorem append_suffix_ne (first second : String) : first ++ "_lua.rs" ≠ second ++ ".lua" := by
  intro h
  have hlast := congrArg (fun name : String => name.toList.getLast?) h
  simp at hlast

theorem append_suffix_inj {first second : String} (suffix : String)
    (h : first ++ suffix = second ++ suffix) : first = second := by
  have hchars := congrArg String.toList h
  rw [String.toList_append, String.toList_append] at hchars
  exact String.toList_inj.1 (List.append_cancel_right hchars)

/-- Inputs write to a path in common just if they have the same stem. -/
theorem shares_path_iff (hv : work? target roots files input = some v) (hv' : v.isWritten)
    (hw : work? target roots files other = some w) (hw' : w.isWritten) :
    (∃ path ∈ v.paths, path ∈ w.paths) ↔ stem input = stem other := by
  constructor
  · rintro ⟨path, hpath, hpath'⟩
    -- The last component tells bindings from a stub, and either from those of other stems.
    rcases getLast?_of_work hv hpath with hfirst | hfirst <;>
      rcases getLast?_of_work hw hpath' with hsecond | hsecond <;>
      have hname := Option.some.inj (hfirst.symm.trans hsecond)
    · exact append_suffix_inj _ hname
    · exact absurd hname (append_suffix_ne _ _)
    · exact absurd hname.symm (append_suffix_ne _ _)
    · exact append_suffix_inj _ hname
  · intro hstem
    obtain ⟨_, output, _, _, rfl, houtput, -⟩ := places_of_work hv hv'
    obtain ⟨_, output', _, _, rfl, houtput', -⟩ := places_of_work hw hw'
    rw [outputName, hstem, ← outputName, houtput'] at houtput
    cases houtput
    exact ⟨output, List.mem_cons_self, List.mem_cons_self⟩

theorem isFailed_of_isWritten (h : w.isWritten) : w.isFailed = false := by
  cases w with
  | written interfaces output expansion stub => rfl
  | failed interfaces failure => cases h
  | skipped => rfl

theorem nodup_paths (h : work? target roots files input = some w) : w.paths.Nodup := by
  cases w with
  | failed interfaces failure => exact List.nodup_nil
  | skipped => exact List.nodup_nil
  | written interfaces output expansion stub =>
    obtain ⟨_, _, _, _, hsame, houtput, hstub⟩ := places_of_work h rfl
    cases hsame
    cases stub with
    | none => exact List.nodup_singleton output
    | some path =>
      refine List.nodup_cons.2 ⟨fun hmem => ?_, List.nodup_singleton path⟩
      rw [List.mem_singleton.1 hmem] at houtput
      have hname : path.getLast? = some (stem input ++ "_lua.rs") :=
        getLast?_of_place (by decide) (by decide) houtput
      rw [getLast?_of_stubPlace hstub] at hname
      exact append_suffix_ne _ _ (Option.some.inj hname).symm

/-! ### What a path is to hold -/

variable {g : Generator} {inputs : List String}

theorem contents_prepared (g : Generator) (files : Files) (roots : Roots) :
    (prepared g files roots).files.contents = files.contents := by
  obtain ⟨made, halt, hprepared, hcontents⟩ := prepared_eq g files roots
  rw [hprepared]
  exact hcontents

theorem content?_prepared (g : Generator) (files : Files) (roots : Roots) (path : Path) :
    (prepared g files roots).files.content? path = files.content? path := by
  rw [Files.content?, contents_prepared, Files.content?]

/-- The inputs hold what they held, and all that is written for them is held. -/
structure Kept (g : Generator) (files : Files) (roots : Roots) (inputs : List String) : Prop where
  intact : ∀ input ∈ inputs, ∀ path, (prepared g files roots).files.locate input = .ok path →
    ((start g files).run roots inputs).files.content? path = files.content? path
  held : ∀ entry ∈ writesAll (plan g files roots) g inputs,
    ((start g files).run roots inputs).files.content? entry.1 = some entry.2

/-- No path is to hold two contents: what is written there twice, or where an input lies, is the
same. -/
structure Consistent (g : Generator) (files : Files) (roots : Roots) (inputs : List String) :
    Prop where
  agree : ∀ entry ∈ writesAll (plan g files roots) g inputs,
    ∀ other ∈ writesAll (plan g files roots) g inputs, entry.1 = other.1 → entry.2 = other.2
  harmless : ∀ entry ∈ writesAll (plan g files roots) g inputs, ∀ input ∈ inputs,
    (prepared g files roots).files.locate input = .ok entry.1 →
      files.content? entry.1 = some entry.2

theorem Kept.consistent (h : Kept g files roots inputs) : Consistent g files roots inputs := by
  refine ⟨fun entry hentry other hother hpath => ?_, fun entry hentry input hinput hlocate => ?_⟩
  · have hheld := h.held entry hentry
    rw [hpath, h.held other hother] at hheld
    exact (Option.some.inj hheld).symm
  · rw [← h.intact input hinput entry.1 hlocate]
    exact h.held entry hentry

theorem work?_of_isWritten (h : (plan g files roots input).isWritten) :
    work? g.target roots (prepared g files roots).files input =
      some (plan g files roots input) := by
  rw [plan, workOf] at h ⊢
  cases hwork : work? g.target roots (prepared g files roots).files input with
  | some w => rfl
  | none =>
    rw [hwork] at h
    cases h

/-- Where no path is to hold two contents, each input comes to what it comes to by itself. -/
theorem Consistent.run_succeeds (h : Consistent g files roots inputs)
    (hrunning : (prepared g files roots).halt = none)
    (hwritten : ∀ input ∈ inputs, (plan g files roots input).isWritten) :
    Succeeds ((start g files).run roots inputs) ∧
      ((start g files).run roots inputs).files =
        (prepared g files roots).files.putAll (writesAll (plan g files roots) g inputs) := by
  have hgenerator := (generator_prepared g files roots).1
  have hcarried := foldl_takeInput_of_harmless
    (fun input hinput => work?_of_isWritten (hwritten input hinput))
    (fun input hinput => isFailed_of_isWritten (hwritten input hinput)) ?_ hrunning
    (congrArg Generator.target hgenerator) (.refl _ _)
  · rw [hgenerator] at hcarried
    exact run_of_carried hcarried
  · intro entry hentry input hinput hlocate
    rw [hgenerator] at hentry
    rw [content?_prepared]
    exact h.harmless entry hentry input hinput (eq_ok_of_toOption hlocate)

theorem Consistent.kept (h : Consistent g files roots inputs)
    (hrunning : (prepared g files roots).halt = none)
    (hwritten : ∀ input ∈ inputs, (plan g files roots input).isWritten) :
    Kept g files roots inputs := by
  obtain ⟨-, hfiles⟩ := h.run_succeeds hrunning hwritten
  have hheld : ∀ entry ∈ writesAll (plan g files roots) g inputs,
      ((start g files).run roots inputs).files.content? entry.1 = some entry.2 := by
    intro entry hentry
    rw [hfiles]
    exact Files.content?_putAll_of_agree
      (fun other hother hpath => h.agree other hother entry hentry hpath)
      (List.mem_map_of_mem hentry) _
  refine ⟨fun input hinput path hlocate => ?_, hheld⟩
  by_cases hmem : path ∈ (writesAll (plan g files roots) g inputs).map Prod.fst
  · obtain ⟨entry, hentry, rfl⟩ := List.mem_map.1 hmem
    exact (hheld entry hentry).trans (h.harmless entry hentry input hinput hlocate).symm
  · rw [hfiles, Files.content?_putAll_of_notMem hmem, content?_prepared]

/-- Inputs with different stems that no output lies over ask for nothing contrary. -/
theorem consistent_of_stems (hwritten : ∀ input ∈ inputs, (plan g files roots input).isWritten)
    (hstems : (inputs.map stem).Nodup)
    (huntouched : Untouched (plan g files roots) (prepared g files roots).files inputs) :
    Consistent g files roots inputs := by
  have hpaths : ((writesAll (plan g files roots) g inputs).map Prod.fst).Nodup := by
    rw [map_fst_writesAll, List.nodup_flatMap]
    refine ⟨fun input hinput => nodup_paths (work?_of_isWritten (hwritten input hinput)), ?_⟩
    refine (List.pairwise_map.1 hstems).imp_of_mem fun {a b} ha hb hne path hpath hpath' => ?_
    exact hne ((shares_path_iff (work?_of_isWritten (hwritten a ha)) (hwritten a ha)
      (work?_of_isWritten (hwritten b hb)) (hwritten b hb)).1 ⟨path, hpath, hpath'⟩)
  refine ⟨fun entry hentry other hother hpath => ?_, fun entry hentry input hinput hlocate => ?_⟩
  · rw [List.inj_on_of_nodup_map hpaths hentry hother hpath]
  · have hmem : entry.1 ∈ (writesAll (plan g files roots) g inputs).map Prod.fst :=
      List.mem_map_of_mem hentry
    rw [map_fst_writesAll] at hmem
    obtain ⟨writer, hwriter, hpath⟩ := List.mem_flatMap.1 hmem
    exact absurd (by rw [hlocate]; rfl) (huntouched writer hwriter entry.1 hpath input hinput)

/-- A run over inputs that each come to bindings keeps the inputs and all that is written for them
just if no path is to hold two contents, and then it succeeds. Inputs write to a path in common
just if they have the same stem, so nothing is lost where all stems differ and no output lies over
an input. -/
theorem kept_iff_consistent (g : Generator) (files : Files) (roots : Roots) (inputs : List String)
    (hrunning : (prepared g files roots).halt = none)
    (hwritten : ∀ input ∈ inputs, (plan g files roots input).isWritten) :
    (Kept g files roots inputs ↔ Consistent g files roots inputs) ∧
      (Kept g files roots inputs → Succeeds ((start g files).run roots inputs)) ∧
      (∀ a ∈ inputs, ∀ b ∈ inputs,
        (∃ path ∈ (plan g files roots a).paths, path ∈ (plan g files roots b).paths) ↔
          stem a = stem b) ∧
      ((inputs.map stem).Nodup →
        Untouched (plan g files roots) (prepared g files roots).files inputs →
          Kept g files roots inputs) := by
  refine ⟨⟨Kept.consistent, fun h => h.kept hrunning hwritten⟩,
    fun h => (h.consistent.run_succeeds hrunning hwritten).1, fun a ha b hb => ?_,
    fun hstems huntouched => ?_⟩
  · exact shares_path_iff (work?_of_isWritten (hwritten a ha)) (hwritten a ha)
      (work?_of_isWritten (hwritten b hb)) (hwritten b hb)
  · exact (consistent_of_stems hwritten hstems huntouched).kept hrunning hwritten

theorem kept_namingNext :
    Kept (.fresh .default []) namingNext ⟨".", some "types"⟩ ["a.rs", "b.rs"] ∧
      Succeeds (runOver namingNext ["a.rs", "b.rs"]) := by
  obtain ⟨-, hsucceeds, -, hkept⟩ := kept_iff_consistent (.fresh .default []) namingNext
    ⟨".", some "types"⟩ ["a.rs", "b.rs"] (by decide +kernel) (by decide +kernel)
  have hkept := hkept (by decide +kernel) separate_namingNext.untouched
  exact ⟨hkept, hsucceeds hkept⟩

/-- Two sources, of which the second lies where the bindings of the first go. -/
def lyingOver : Files :=
  ⟨[(["a.rs"], "#[lua_methods]\nimpl A \x7b\x7d\n".toUTF8.toList),
    (["a_lua.rs"], "#[lua_methods]\nimpl B \x7b\x7d\n".toUTF8.toList)], []⟩

/-- The second source is overwritten before it is read, so it gets no bindings. -/
theorem output_lies_over_input :
    let r := (start (.fresh .default []) lyingOver).run ⟨".", none⟩ ["a.rs", "a_lua.rs"]
    (∀ input ∈ ["a.rs", "a_lua.rs"],
        (plan (.fresh .default []) lyingOver ⟨".", none⟩ input).isWritten) ∧
      r.Succeeds ∧ r.files.content? ["a_lua.rs"] ≠ lyingOver.content? ["a_lua.rs"] ∧
      (plan (.fresh .default []) lyingOver ⟨".", none⟩ "a_lua.rs").paths = [["a_lua_lua.rs"]] ∧
      r.files.content? ["a_lua_lua.rs"] = none := by
  decide +kernel

end LuaBindings.FileRun
