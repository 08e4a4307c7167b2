import LuaBindings.Proofs.Diagnostic.Lines
import LuaBindings.Proofs.FileRun.Sequence

/-!
# Every input on its own

A run that is not halted takes its inputs one by one. Each of them ends in one way (`Ends`): at its
loading, its blocks, its interfaces or its expansion, with nothing written and a line for each
diagnostic; without blocks; or with its bindings written, and its stub if there is a directory for
stubs. How the inputs before it ended changes nothing about that (`handles_every_input`).
-/

set_option autoImplicit false

namespace LuaBindings.FileRun

def Work.lines (roots : Roots) (input : String) : Work → List String
  | failed _ failure => failure.toList.map fun d => s!"  >> error: {input}:{d.text}"
  | skipped => [s!"  >> warning: no #[lua_methods] impl blocks in {input}, skipping..."]
  | written .. => [s!"  {input} => {outputName roots input}"]

/-- How an input ends that is taken with the files and the generator of a run. -/
inductive Ends (roots : Roots) (r : FileRun) (input : String) : Work → Prop
  | unloaded {f : Failure} : load r.files input = .error f → Ends roots r input (.failed [] f)
  | unparsed {source : String} {f : Failure} : load r.files input = .ok source →
    ImplBlock.ofSource source ImplBlock.defaultMarker = .error f → Ends roots r input (.failed [] f)
  | skipped {source : String} : load r.files input = .ok source →
    ImplBlock.ofSource source ImplBlock.defaultMarker = .ok [] → Ends roots r input .skipped
  | unbuilt {source : String} {impls : List ImplBlock} {f : Failure} :
    load r.files input = .ok source →
    ImplBlock.ofSource source ImplBlock.defaultMarker = .ok impls → impls ≠ [] →
    Generator.interfaces r.generator.target impls = .error (.diagnosed f) →
    Ends roots r input (.failed [] f)
  | unexpanded {source : String} {impls : List ImplBlock} {interfaces : List Interface}
    {f : Failure} : load r.files input = .ok source →
    ImplBlock.ofSource source ImplBlock.defaultMarker = .ok impls → impls ≠ [] →
    Generator.interfaces r.generator.target impls = .ok interfaces →
    Generator.expand source interfaces = .error f → Ends roots r input (.failed interfaces f)
  /-- The bindings have a place, and so has the stub if there is a directory for stubs. -/
  | written {source expansion : String} {impls : List ImplBlock} {interfaces : List Interface}
    {output : Path} {stub : Option Path} : load r.files input = .ok source →
    ImplBlock.ofSource source ImplBlock.defaultMarker = .ok impls → impls ≠ [] →
    Generator.interfaces r.generator.target impls = .ok interfaces →
    Generator.expand source interfaces = .ok expansion →
    r.files.place? (outputName roots input) = some output →
    (roots.stubs.map fun directory => r.files.place? (stubName directory input)) = stub.map some →
    Ends roots r input (.written interfaces output expansion stub)

def behind (roots : Roots) (input : String) (w : Work) (r : FileRun) : FileRun where
  generator := r.generator.record w.interfaces
  files := r.files.putAll (w.writes (r.generator.record w.interfaces) input)
  log := (w.lines roots input).reverse ++ r.log
  failed := r.failed + if w.isFailed then 1 else 0
  halt := none

/-- Inputs that are taken in their order, how each of them ends, and the run behind them. -/
inductive Handles (roots : Roots) : FileRun → List String → List Work → FileRun → Prop
  | done (r : FileRun) : Handles roots r [] [] r
  | next {r last : FileRun} {input : String} {w : Work} {rest : List String} {works : List Work} :
    Ends roots r input w → Handles roots (r.behind roots input w) rest works last →
    Handles roots r (input :: rest) (w :: works) last

variable {r last : FileRun} {roots : Roots} {input source : String} {inputs : List String}
  {w : Work} {works : List Work}

/-! ### One input -/

theorem inLines_of_ends (h : Ends roots r input w) :
    ∀ interfaces f, w = .failed interfaces f → f.InLines := by
  rintro interfaces f rfl
  cases h with
  | unloaded hload => exact inLines_of_load hload
  | unparsed _ hblocks => exact Generator.inLines_of_ofSource hblocks
  | unbuilt _ hblocks _ hbuilt => exact Generator.inLines_of_interfaces hblocks hbuilt
  | unexpanded _ hblocks _ hbuilt hexpand =>
    exact Generator.inLines_of_expand hblocks hbuilt hexpand

theorem map_place?_of_stubPlace {stub : Option Path}
    (h : stubPlace? roots r.files input = some stub) :
    (roots.stubs.map fun directory => r.files.place? (stubName directory input)) =
      stub.map some := by
  rw [stubPlace?] at h
  cases hstubs : roots.stubs with
  | none =>
    rw [hstubs] at h
    cases h
    rfl
  | some directory =>
    rw [hstubs] at h
    obtain ⟨path, hpath, rfl⟩ := Option.map_eq_some_iff.1 h
    exact congrArg some hpath

/-- An input that was loaded ends at one of the later stages, or with all it has written. -/
theorem ends_of_sourceWork (hload : load r.files input = .ok source)
    (h : sourceWork? r.generator.target roots r.files input source = some w) :
    Ends roots r input w := by
  cases hblocks : ImplBlock.ofSource source ImplBlock.defaultMarker with
  | error f =>
    rw [sourceWork?, Generator.read, hblocks] at h
    cases h
    exact .unparsed hload hblocks
  | ok impls =>
    have hread : (Generator.fresh r.generator.target []).read source =
        Generator.interfaces r.generator.target impls := by
      rw [Generator.read, hblocks]
      rfl
    rw [sourceWork?, hread] at h
    cases hbuilt : Generator.interfaces r.generator.target impls with
    | error fault =>
      have hne : impls ≠ [] := by
        rintro rfl
        cases hbuilt
      rw [hbuilt] at h
      cases fault with
      | codePoint => cases h
      | diagnosed f =>
        cases h
        exact .unbuilt hload hblocks hne hbuilt
    | ok interfaces =>
      have himpls := Generator.impls_of_interfaces hbuilt
      rw [hbuilt] at h
      cases interfaces with
      | nil =>
        -- There is an interface for each block, so there are no blocks either.
        cases himpls
        cases h
        exact .skipped hload hblocks
      | cons i rest =>
        have hne : impls ≠ [] := by
          rintro rfl
          cases himpls
        obtain ⟨f, hexpand, rfl⟩ | ⟨expansion, output, stub, hexpand, houtput, hstub, rfl⟩ :=
          emitWork_cases h
        · exact .unexpanded hload hblocks hne hbuilt hexpand
        · exact .written hload hblocks hne hbuilt hexpand houtput (map_place?_of_stubPlace hstub)

theorem ends_of_work (h : work? r.generator.target roots r.files input = some w) :
    Ends roots r input w := by
  rw [work?] at h
  split at h
  · cases h
  · cases hload : load r.files input with
    | error f =>
      rw [hload] at h
      cases h
      exact .unloaded hload
    | ok source =>
      rw [hload] at h
      exact ends_of_sourceWork hload h

theorem take_eq_behind (hrunning : r.halt = none) (h : Ends roots r input w) :
    w.take roots input r = r.behind roots input w := by
  obtain ⟨generator, files, log, failed, halt⟩ := r
  subst hrunning
  cases w with
  | skipped => rfl
  | written interfaces output expansion stub => rfl
  | failed interfaces f =>
    have hlines := Failure.splitLines_text (inLines_of_ends h interfaces f rfl)
    rw [Work.take, Work.carryOut, fail, foldl_say, hlines, List.map_map]
    rfl

/-! ### All inputs -/

theorem exists_handles (h : (inputs.foldl (takeInput roots) r).halt = none) :
    ∃ works, Handles roots r inputs works (inputs.foldl (takeInput roots) r) := by
  induction inputs generalizing r with
  | nil => exact ⟨[], .done r⟩
  | cons input rest ih =>
    obtain ⟨hrunning, w, hwork, hfold⟩ := exists_work_of_running h
    have hends := ends_of_work hwork
    rw [hfold, take_eq_behind hrunning hends] at h ⊢
    obtain ⟨works, hrest⟩ := ih h
    exact ⟨w :: works, .next hends hrest⟩

namespace Handles

theorem failed_eq (h : Handles roots r inputs works last) :
    last.failed = r.failed + works.countP Work.isFailed := by
  induction h with
  | done => rfl
  | next _ _ ih => rw [ih, List.countP_cons, behind, Nat.add_assoc, Nat.add_comm (List.countP _ _)]

theorem log_eq (h : Handles roots r inputs works last) :
    last.log.reverse =
      r.log.reverse ++ (inputs.zip works).flatMap fun entry => entry.2.lines roots entry.1 := by
  induction h with
  | done => rw [List.zip_nil_left, List.flatMap_nil, List.append_nil]
  | next _ _ ih =>
    rw [ih, behind, List.reverse_append, List.reverse_reverse, List.append_assoc,
      List.zip_cons_cons, List.flatMap_cons]

end Handles

/-- What is written of an input has its stub just where there is a directory for stubs. -/
theorem isSome_stub_of_ends (h : Ends roots r input w) (hwritten : w.isWritten = true) :
    w.stub?.isSome = roots.stubs.isSome := by
  cases h with
  | written _ _ _ _ _ _ hstub =>
    have hsome := congrArg Option.isSome hstub
    rw [Option.isSome_map, Option.isSome_map] at hsome
    exact hsome.symm
  | _ => cases hwritten

theorem Handles.isSome_stub (h : Handles roots r inputs works last) :
    ∀ w ∈ works, w.isWritten = true → w.stub?.isSome = roots.stubs.isSome := by
  induction h with
  | done => exact List.forall_mem_nil _
  | next hends _ ih => exact List.forall_mem_cons.2 ⟨isSome_stub_of_ends hends, ih⟩

/-! ### A whole run -/

theorem log_prepared (generator : Generator) (files : Files) (roots : Roots) :
    (prepared generator files roots).log = ["=== Generating Lua bindings:"] := by
  obtain ⟨made, halt, hprepared, -⟩ := prepared_eq generator files roots
  rw [hprepared]

theorem run_of_running {g : Generator} {files : Files}
    (h : (inputs.foldl (takeInput roots) (prepared g files roots)).halt = none) :
    (start g files).run roots inputs =
      (inputs.foldl (takeInput roots) (prepared g files roots)).finish :=
  andThen_of_running h

theorem log_finish (r : FileRun) :
    r.finish.log.reverse = r.log.reverse ++
      if r.failed = 0 then [] else [s!"  >> error: {r.failed} file(s) failed"] := by
  rw [finish]
  split
  · rw [List.append_nil]
  · exact List.reverse_cons

/-- The exit status of a run that is not halted tells whether an input has failed. -/
theorem status?_of_running (hrunning : r.halt = none) (h : r.failed = works.countP Work.isFailed) :
    r.status? = some (if ∃ w ∈ works, w.isFailed = true then 1 else 0) := by
  rw [status?, hrunning, h]
  by_cases hfailed : ∃ w ∈ works, w.isFailed = true
  · rw [if_pos hfailed, if_neg (List.countP_pos_iff.2 hfailed).ne']
  · have hnone : works.countP Work.isFailed = 0 :=
      List.countP_eq_zero.2 fun w hw hw' => hfailed ⟨w, hw, hw'⟩
    rw [if_neg hfailed, if_pos hnone]

/-- A run that nothing halts takes every input, in order. What fails writes nothing and is reported
line by line, what has no blocks writes nothing, and all else writes its bindings, with a stub just
where there is a directory for stubs. The count is that of the inputs that failed, and so is the
status. -/
theorem handles_every_input {g : Generator} {files : Files}
    (h : ((start g files).run roots inputs).halt = none) :
    let r := (start g files).run roots inputs
    ∃ works last, Handles roots (prepared g files roots) inputs works last ∧
      r.files = last.files ∧
      (∀ w ∈ works, w.isWritten = true → w.stub?.isSome = roots.stubs.isSome) ∧
      r.log.reverse = "=== Generating Lua bindings:" ::
        (((inputs.zip works).flatMap fun entry => entry.2.lines roots entry.1) ++
          if r.failed = 0 then [] else [s!"  >> error: {r.failed} file(s) failed"]) ∧
      r.failed = works.countP Work.isFailed ∧
      r.status? = some (if ∃ w ∈ works, w.isFailed = true then 1 else 0) := by
  intro r
  obtain ⟨log, hrun⟩ := run_eq g files roots inputs
  have hrunning : (inputs.foldl (takeInput roots) (prepared g files roots)).halt = none := by
    rw [hrun] at h
    exact h
  have hlast : r.files = (inputs.foldl (takeInput roots) (prepared g files roots)).files ∧
      r.failed = (inputs.foldl (takeInput roots) (prepared g files roots)).failed := by
    change ((start g files).run roots inputs).files = _ ∧
      ((start g files).run roots inputs).failed = _
    rw [hrun]
    exact ⟨rfl, rfl⟩
  obtain ⟨works, hhandles⟩ := exists_handles hrunning
  have hfailed : r.failed = works.countP Work.isFailed := by
    rw [hlast.2, hhandles.failed_eq, (generator_prepared g files roots).2, Nat.zero_add]
  refine ⟨works, _, hhandles, hlast.1, hhandles.isSome_stub, ?_, hfailed,
    status?_of_running h hfailed⟩
  rw [hlast.2]
  change ((start g files).run roots inputs).log.reverse = _
  rw [run_of_running hrunning, log_finish, hhandles.log_eq, log_prepared]
  rfl

/-- Files of which one has no blocks, one has a block that does not expand, and one is bound. -/
def mixed : Files :=
  ⟨[(["plain.rs"], "fn f() \x7b\x7d\n".toUTF8.toList),
    (["tuple.rs"],
      "#[lua_methods]\nimpl (u8,) \x7b\n    fn f() \x7b\x7d\n\x7d\n".toUTF8.toList),
    (["bound.rs"], "#[lua_methods]\nimpl B \x7b\x7d\n".toUTF8.toList)], []⟩

theorem handles_every_input_mixed :
    let roots : Roots := ⟨".", some "types"⟩
    let inputs := ["missing.rs", "plain.rs", "tuple.rs", "bound.rs"]
    let r := (start (.fresh .default []) mixed).run roots inputs
    r.halt = none ∧
      (∃ works last, Handles roots (prepared (.fresh .default []) mixed roots) inputs works last ∧
        works.countP Work.isFailed = 2) ∧
      r.log.reverse =
        ["=== Generating Lua bindings:",
          "  >> error: missing.rs:unable to read file: No such file or directory",
          "  >> warning: no #[lua_methods] impl blocks in plain.rs, skipping...",
          "  >> error: tuple.rs:2:6: lua_methods attribute only works for named types",
          "  bound.rs => ./bound_lua.rs",
          "  >> error: 2 file(s) failed"] := by
  intro roots inputs r
  have hrun : r.halt = none ∧ r.failed = 2 ∧ r.log.reverse =
      ["=== Generating Lua bindings:",
        "  >> error: missing.rs:unable to read file: No such file or directory",
        "  >> warning: no #[lua_methods] impl blocks in plain.rs, skipping...",
        "  >> error: tuple.rs:2:6: lua_methods attribute only works for named types",
        "  bound.rs => ./bound_lua.rs",
        "  >> error: 2 file(s) failed"] := by decide +kernel
  obtain ⟨hrunning, hfailed, hlog⟩ := hrun
  obtain ⟨works, last, hhandles, -, -, -, hcount, -⟩ := handles_every_input hrunning
  exact ⟨hrunning, ⟨works, last, hhandles, hcount.symm.trans hfailed⟩, hlog⟩

end LuaBindings.FileRun
