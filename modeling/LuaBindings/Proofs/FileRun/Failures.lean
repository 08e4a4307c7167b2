import Mathlib.Data.List.Induction
import LuaBindings.Proofs.FileRun.Reordering
import LuaBindings.Proofs.Sessions

/-!
# Leaving out the inputs that fail

An input that fails writes nothing. It is not forgotten, though, if it fails as late as in its
expansion: its classes are remembered by then (`takeInput_of_fails`), as are those of all complete
interfaces (`generator_foldl_takeInput`). So a run over the inputs that are left without the failed
ones writes the same files, except for the stubs that name a type whose class a failed input has
left behind (`leaving_out_failures`).
-/

set_option autoImplicit false

namespace LuaBindings.FileRun

open Generator (publishedNames published? get?_record published?_eq_none_iff)

/-! ### What inputs leave behind -/

/-- The interfaces of an input that the run completes, whether or not they expand. -/
def completed (r : FileRun) (input : String) : List Interface :=
  if r.halt.isSome || hasNull input then []
  else
    match load r.files input with
    | .error _ => []
    | .ok source => Generator.completed r.generator.target source

def completedAll (roots : Roots) (r : FileRun) : List String → List Interface
  | [] => []
  | input :: rest => r.completed input ++ completedAll roots (takeInput roots r input) rest

def Fails (roots : Roots) (r : FileRun) (input : String) : Prop :=
  (takeInput roots r input).failed ≠ r.failed

instance (roots : Roots) (r : FileRun) (input : String) : Decidable (Fails roots r input) :=
  inferInstanceAs (Decidable ((takeInput roots r input).failed ≠ r.failed))

def remaining (roots : Roots) (r : FileRun) : List String → List String
  | [] => []
  | input :: rest =>
    let others := remaining roots (takeInput roots r input) rest
    if Fails roots r input then others else input :: others

/-- Of the inputs that complete an interface for the name, the last has failed. -/
def LeftBehind (roots : Roots) (r : FileRun) (inputs : List String) (name : String) : Prop :=
  ∃ before input after, inputs = before ++ input :: after ∧
    Fails roots (before.foldl (takeInput roots) r) input ∧
    name ∈ publishedNames ((before.foldl (takeInput roots) r).completed input) ∧
    name ∉ publishedNames
      (completedAll roots ((before ++ [input]).foldl (takeInput roots) r) after)

/-- The path of a stub that names a type whose class was left behind. -/
def NamesLeftBehind (roots : Roots) (r : FileRun) (inputs : List String) (path : Path) : Prop :=
  ∃ before input after, inputs = before ++ input :: after ∧
    ¬Fails roots (before.foldl (takeInput roots) r) input ∧
    stubPlace? roots r.files input = some (some path) ∧
    ∃ name ∈ Stub.names ((before.foldl (takeInput roots) r).completed input),
      LeftBehind roots r (before ++ [input]) name

def StubsApart (roots : Roots) (files : Files) (inputs : List String) : Prop :=
  ∀ input ∈ inputs, ∀ other ∈ inputs, ∀ path ∈ (files.locate other).toOption,
    stubPlace? roots files input ≠ some (some path)

instance (roots : Roots) (files : Files) (inputs : List String) :
    Decidable (StubsApart roots files inputs) :=
  inferInstanceAs (Decidable (∀ input ∈ inputs, ∀ other ∈ inputs,
    ∀ path ∈ (files.locate other).toOption, stubPlace? roots files input ≠ some (some path)))

variable {r fewer : FileRun} {roots : Roots} {input source name : String} {inputs : List String}
  {interfaces : List Interface}

theorem mem_publishedNames_append {rest : List Interface} :
    name ∈ publishedNames (interfaces ++ rest) ↔
      name ∈ publishedNames interfaces ∨ name ∈ publishedNames rest := by
  rw [publishedNames, List.filterMap_append, List.mem_append]
  rfl

theorem completedAll_append (roots : Roots) (r : FileRun) (inputs rest : List String) :
    completedAll roots r (inputs ++ rest) =
      completedAll roots r inputs ++
        completedAll roots (inputs.foldl (takeInput roots) r) rest := by
  induction inputs generalizing r with
  | nil => rfl
  | cons input inputs ih =>
    rw [List.cons_append, completedAll, ih, completedAll, List.append_assoc, List.foldl_cons]

theorem remaining_append (roots : Roots) (r : FileRun) (inputs : List String) (input : String) :
    remaining roots r (inputs ++ [input]) =
      remaining roots r inputs ++
        if Fails roots (inputs.foldl (takeInput roots) r) input then [] else [input] := by
  induction inputs generalizing r with
  | nil => rfl
  | cons first inputs ih =>
    rw [List.cons_append, remaining, ih, remaining, List.foldl_cons]
    split
    · rfl
    · rw [List.cons_append]

/-- A name that was left behind stays so until an input completes an interface for it. -/
theorem LeftBehind.append (h : LeftBehind roots r inputs name)
    (hname : name ∉ publishedNames ((inputs.foldl (takeInput roots) r).completed input)) :
    LeftBehind roots r (inputs ++ [input]) name := by
  obtain ⟨before, first, after, rfl, hfails, hmem, hafter⟩ := h
  refine ⟨before, first, after ++ [input], by simp, hfails, hmem, ?_⟩
  rw [completedAll_append, mem_publishedNames_append, ← List.foldl_append, completedAll,
    completedAll, List.append_nil]
  simp only [List.append_assoc, List.singleton_append]
  exact not_or.2 ⟨hafter, hname⟩

theorem leftBehind_append (hfails : Fails roots (inputs.foldl (takeInput roots) r) input)
    (hname : name ∈ publishedNames ((inputs.foldl (takeInput roots) r).completed input)) :
    LeftBehind roots r (inputs ++ [input]) name :=
  ⟨inputs, input, [], rfl, hfails, hname, List.not_mem_nil⟩

theorem NamesLeftBehind.append {path : Path} (h : NamesLeftBehind roots r inputs path)
    (input : String) : NamesLeftBehind roots r (inputs ++ [input]) path := by
  obtain ⟨before, first, after, rfl, hstub⟩ := h
  exact ⟨before, first, after ++ [input], by simp, hstub⟩

/-! ### One input -/

theorem completed_of_load (hrunning : r.halt = none) (hnull : hasNull input = false)
    (hload : load r.files input = .ok source) :
    r.completed input = Generator.completed r.generator.target source := by
  rw [completed, hrunning, hnull, hload]
  rfl

/-- The interfaces that an input completes are all that the run remembers of it. -/
theorem generator_takeInput (roots : Roots) (r : FileRun) (input : String) :
    (takeInput roots r input).generator = r.generator.record (r.completed input) := by
  rw [takeInput, andThen, completed]
  cases hhalt : r.halt.isSome with
  | true => rfl
  | false =>
    cases hnull : hasNull input with
    | true => rfl
    | false =>
      rw [if_neg Bool.false_ne_true, if_neg Bool.false_ne_true, Bool.false_or,
        if_neg Bool.false_ne_true]
      cases load r.files input with
      | error f => exact generator_fail r input f
      | ok source => exact (generator_takeSource roots input source r).trans (Generator.step_snd _ _)

theorem generator_foldl_takeInput (roots : Roots) (r : FileRun) (inputs : List String) :
    (inputs.foldl (takeInput roots) r).generator =
      r.generator.record (completedAll roots r inputs) := by
  induction inputs generalizing r with
  | nil => rfl
  | cons input inputs ih =>
    rw [List.foldl_cons, ih, generator_takeInput, Generator.record_record, completedAll]

theorem takeSource_of_fails (h : (takeSource roots input source r).failed ≠ r.failed) :
    let interfaces := Generator.completed r.generator.target source
    ∃ f, takeSource roots input source r =
        { r with generator := r.generator.record interfaces }.fail input f ∧
      (interfaces = [] ∨ r.generator.read source = .ok interfaces ∧
        Generator.expand source interfaces = .error f) := by
  rw [takeSource] at h
  rw [takeSource, Generator.completed, ← r.generator.read_eq []]
  cases hread : r.generator.read source with
  | error fault =>
    cases fault with
    | diagnosed f => exact ⟨f, rfl, .inl rfl⟩
    | codePoint =>
      rw [hread] at h
      exact absurd rfl h
  | ok interfaces =>
    rw [hread] at h
    cases interfaces with
    | nil => exact absurd rfl h
    | cons i rest =>
      cases hexpand : Generator.expand source (i :: rest) with
      | error f =>
        refine ⟨f, ?_, .inr ⟨rfl, hexpand⟩⟩
        change emit roots input source (i :: rest) _ = _
        rw [emit, hexpand]
      | ok expansion =>
        obtain ⟨files, log, halt, hemit⟩ := emit_eq hexpand
          { r with generator := r.generator.record (i :: rest) } roots input
        exact absurd (congrArg failed hemit) h

/-- An input that fails is counted, and leaves its classes behind if it fails to expand. -/
theorem takeInput_of_fails (h : Fails roots r input) :
    ∃ f, takeInput roots r input =
        { r with generator := r.generator.record (r.completed input) }.fail input f ∧
      (r.completed input = [] ∨ ∃ source, load r.files input = .ok source ∧
        r.generator.read source = .ok (r.completed input) ∧
        Generator.expand source (r.completed input) = .error f) := by
  have hrunning : r.halt = none := by
    cases hhalt : r.halt with
    | none => rfl
    | some halt => exact absurd (congrArg failed (andThen_of_halted (by rw [hhalt]; rfl))) h
  rw [Fails, takeInput, andThen_of_running hrunning] at h
  rw [takeInput, andThen_of_running hrunning]
  cases hnull : hasNull input with
  | true =>
    rw [hnull] at h
    exact absurd rfl h
  | false =>
    rw [hnull] at h
    rw [if_neg Bool.false_ne_true] at h ⊢
    cases hload : load r.files input with
    | error f =>
      have hnothing : r.completed input = [] := by
        rw [completed, hrunning, hnull, hload]
        rfl
      rw [hnothing]
      exact ⟨f, rfl, .inl rfl⟩
    | ok source =>
      rw [hload] at h
      rw [completed_of_load hrunning hnull hload]
      obtain ⟨f, hstep, hphase⟩ := takeSource_of_fails h
      exact ⟨f, hstep, hphase.imp_right fun hexpand => ⟨source, rfl, hexpand⟩⟩

/-- Complete interfaces that do not expand are remembered all the same. -/
theorem takeInput_of_unexpanded {f : Failure} (hrunning : r.halt = none)
    (hnull : hasNull input = false) (hload : load r.files input = .ok source)
    (hread : r.generator.read source = .ok interfaces) (hsome : interfaces ≠ [])
    (hexpand : Generator.expand source interfaces = .error f) (roots : Roots) :
    takeInput roots r input =
      { r with generator := r.generator.record interfaces }.fail input f := by
  rw [takeInput, andThen_of_running hrunning, hnull, if_neg Bool.false_ne_true, hload]
  dsimp only
  rw [takeSource, hread]
  cases interfaces with
  | nil => exact absurd rfl hsome
  | cons i rest =>
    change emit roots input source (i :: rest) _ = _
    rw [emit, hexpand]

/-- What is read expands unless one of its interfaces does not. -/
theorem expand_of_read {g : Generator} (h : g.read source = .ok interfaces) :
    ∃ text, Generator.expand source interfaces = Failure.refuse
      (interfaces.filterMap fun i => Fault.failure? (Fault.ofExcept i.expansion)) text := by
  obtain ⟨impls, himpls, hinterfaces⟩ := exists_of_bind_eq_ok h
  exact Generator.expand_eq_refuse (Fault.ofExcept_eq_ok_iff.1 himpls)
    (Generator.impls_of_interfaces hinterfaces)

/-! ### Two runs side by side -/

/-- A run from which failed inputs are left out. Its table may differ at the given names, and its
files at the given paths; the directories are those of the files at the start. -/
structure Tracks (files : Files) (missed : Nat) (names : String → Prop) (paths : Path → Prop)
    (r fewer : FileRun) : Prop where
  directories : files.isDirectory = r.files.isDirectory
  halt : fewer.halt = r.halt
  failed : r.failed = fewer.failed + missed
  target : fewer.generator.target = r.generator.target
  fixed : fewer.generator.annotator.fixed = r.generator.annotator.fixed
  classes : ∀ name, ¬names name →
    fewer.generator.annotator.classNames.get? name = r.generator.annotator.classNames.get? name
  files : r.files.AgreeOutside paths fewer.files

variable {files : Files} {missed : Nat} {names more : String → Prop} {paths : Path → Prop}

namespace Tracks

theorem refl (names : String → Prop) (paths : Path → Prop) (r : FileRun) :
    Tracks r.files 0 names paths r r :=
  ⟨rfl, rfl, rfl, rfl, rfl, fun _ _ => rfl, .refl paths r.files⟩

theorem mono (h : Tracks files missed names paths r fewer) (hmore : ∀ name, names name → more name) :
    Tracks files missed more paths r fewer :=
  { h with classes := fun name hname => h.classes name (mt (hmore name) hname) }

theorem widen {wider : Path → Prop} (h : Tracks files missed names paths r fewer)
    (hwider : ∀ path, paths path → wider path) : Tracks files missed names wider r fewer :=
  { h with files := h.files.mono hwider }

theorem stop (h : Tracks files missed names paths r fewer) (halt : Halt) :
    Tracks files missed names paths (r.stop halt) (fewer.stop halt) :=
  { h with halt := rfl }

theorem say (h : Tracks files missed names paths r fewer) (line : String) :
    Tracks files missed names paths (r.say line) (fewer.say line) :=
  { h with }

theorem fail (h : Tracks files missed names paths r fewer) (input : String) (f : Failure) :
    Tracks files missed names paths (r.fail input f) (fewer.fail input f) := by
  obtain ⟨log, hr⟩ := r.fail_eq input f
  obtain ⟨log', hfewer⟩ := fewer.fail_eq input f
  rw [hr, hfewer]
  exact { h with failed := by simp only [h.failed]; omega }

theorem andThen (h : Tracks files missed names paths r fewer) {f : FileRun → FileRun}
    (hf : Tracks files missed names paths (f r) (f fewer)) :
    Tracks files missed names paths (r.andThen f) (fewer.andThen f) := by
  rw [FileRun.andThen, FileRun.andThen, h.halt]
  split
  · exact h
  · exact hf

/-- Interfaces that both complete are known to both. -/
theorem record (h : Tracks files missed names paths r fewer) (interfaces : List Interface)
    (hmore : ∀ name, names name → name ∉ publishedNames interfaces → more name) :
    Tracks files missed more paths { r with generator := r.generator.record interfaces }
      { fewer with generator := fewer.generator.record interfaces } := by
  refine { h with classes := fun name hname => ?_ }
  rw [get?_record, get?_record]
  cases hpublished : published? name interfaces with
  | some className => rfl
  | none =>
    have hnames : ¬names name := fun hnames => hname (hmore name hnames
      (published?_eq_none_iff.1 hpublished))
    rw [Option.none_or, Option.none_or, h.classes name hnames]

theorem write (h : Tracks files missed names paths r fewer) (name : String) {text text' : String}
    (hsame : ∀ path, files.place? name = some path → text = text' ∨ paths path) :
    Tracks files missed names paths (r.write name text) (fewer.write name text') := by
  rw [FileRun.write, FileRun.write, Files.write, Files.write, ← h.files.locate_eq]
  cases hlocate : r.files.locate name with
  | error fault => exact h.stop _
  | ok path =>
    dsimp only
    rw [← h.files.directories]
    cases hfree : r.files.isDirectory path with
    | true => exact h.stop _
    | false =>
      have henclosed := Files.enclosed_of_locate hlocate
      have hplace : files.place? name = some path := by
        rw [Files.place?_congr h.directories, Files.place?, hlocate]
        simp [Except.toOption, Option.filter_some, hfree]
      exact { h with
        directories := h.directories.trans (Files.isDirectory_put henclosed _).symm
        files := h.files.put henclosed
          ((hsame path hplace).imp_left (congrArg fun text : String => text.toUTF8.toList)) }

/-- A stub without a name that was left behind has the same text. -/
theorem stub_eq (h : Tracks files missed names paths r fewer)
    (hnames : ∀ name ∈ Stub.names interfaces, ¬names name) (moduleName : String) :
    r.generator.stub moduleName interfaces = fewer.generator.stub moduleName interfaces :=
  Stub.text_congr ⟨h.fixed.symm, fun name hname => (h.classes name (hnames name hname)).symm⟩
    moduleName

theorem writeStub (h : Tracks files missed names paths r fewer)
    (hstub : ∀ path, stubPlace? roots files input = some (some path) →
      ∀ name ∈ Stub.names interfaces, names name → paths path) :
    Tracks files missed names paths (writeStub roots input interfaces r)
      (writeStub roots input interfaces fewer) := by
  rw [FileRun.writeStub, FileRun.writeStub]
  rw [stubPlace?] at hstub
  cases hstubs : roots.stubs with
  | none => exact h
  | some directory =>
    rw [hstubs] at hstub
    refine h.write _ fun path hpath => ?_
    by_cases hnames : ∃ name ∈ Stub.names interfaces, names name
    · obtain ⟨name, hname, hbehind⟩ := hnames
      exact .inr (hstub path (congrArg (Option.map some) hpath) name hname hbehind)
    · exact .inl (h.stub_eq (fun name hname hbehind => hnames ⟨name, hname, hbehind⟩) _)

theorem emit (h : Tracks files missed names paths r fewer)
    (hstub : ∀ path, stubPlace? roots files input = some (some path) →
      ∀ name ∈ Stub.names interfaces, names name → paths path) :
    Tracks files missed names paths (emit roots input source interfaces r)
      (emit roots input source interfaces fewer) := by
  rw [FileRun.emit, FileRun.emit]
  cases Generator.expand source interfaces with
  | error f => exact h.fail input f
  | ok expansion =>
    have hwrite := (h.say s!"  {input} => {outputName roots input}").write
      (outputName roots input) fun _ _ => .inl (Eq.refl expansion)
    exact hwrite.andThen (hwrite.writeStub hstub)

theorem takeSource (h : Tracks files missed names paths r fewer)
    (hmore : ∀ name, names name →
      name ∉ publishedNames (Generator.completed r.generator.target source) → more name)
    (hstub : ∀ path, stubPlace? roots files input = some (some path) →
      ∀ name ∈ Stub.names (Generator.completed r.generator.target source), more name → paths path) :
    Tracks files missed more paths (takeSource roots input source r)
      (takeSource roots input source fewer) := by
  have hread : fewer.generator.read source = r.generator.read source := by
    rw [r.generator.read_eq [], fewer.generator.read_eq [], h.target]
  rw [FileRun.takeSource, FileRun.takeSource, hread]
  rw [Generator.completed, ← r.generator.read_eq []] at hmore hstub
  cases hsource : r.generator.read source with
  | error fault =>
    rw [hsource] at hmore
    have hmono := h.mono fun name hname => hmore name hname List.not_mem_nil
    cases fault with
    | diagnosed f => exact hmono.fail input f
    | codePoint => exact hmono.stop .codePoint
  | ok interfaces =>
    rw [hsource] at hmore hstub
    cases interfaces with
    | nil => exact (h.mono fun name hname => hmore name hname List.not_mem_nil).say _
    | cons i rest => exact (h.record (i :: rest) hmore).emit hstub

/-- The same input keeps the runs side by side. -/
theorem takeInput (h : Tracks files missed names paths r fewer)
    (hread : ∀ path, (files.locate input).toOption = some path → ¬paths path)
    (hmore : ∀ name, names name → name ∉ publishedNames (r.completed input) → more name)
    (hstub : ∀ path, stubPlace? roots files input = some (some path) →
      ∀ name ∈ Stub.names (r.completed input), more name → paths path) :
    Tracks files missed more paths (takeInput roots r input) (takeInput roots fewer input) := by
  have hload : load fewer.files input = load r.files input := by
    rw [load, load, h.files.read_eq fun path hpath => hread path ?_]
    rw [Files.locate_congr h.directories, hpath]
    rfl
  rw [FileRun.takeInput, FileRun.takeInput, FileRun.andThen, FileRun.andThen, h.halt, hload]
  rw [completed] at hmore hstub
  cases hhalt : r.halt.isSome with
  | true =>
    rw [hhalt] at hmore
    exact h.mono fun name hname => hmore name hname List.not_mem_nil
  | false =>
    rw [if_neg Bool.false_ne_true, if_neg Bool.false_ne_true]
    rw [hhalt, Bool.false_or] at hmore hstub
    cases hnull : hasNull input with
    | true =>
      rw [hnull] at hmore
      exact (h.mono fun name hname => hmore name hname List.not_mem_nil).stop .nullInName
    | false =>
      rw [if_neg Bool.false_ne_true, if_neg Bool.false_ne_true]
      rw [hnull, if_neg Bool.false_ne_true] at hmore hstub
      cases hsource : load r.files input with
      | error f =>
        rw [hsource] at hmore
        exact (h.mono fun name hname => hmore name hname List.not_mem_nil).fail input f
      | ok source =>
        rw [hsource] at hmore hstub
        exact h.takeSource hmore hstub

/-- An input that fails may be left out, but for the classes that it leaves behind. -/
theorem leave_out (h : Tracks files missed names paths r fewer) (hfails : Fails roots r input)
    (hmore : ∀ name, names name ∨ name ∈ publishedNames (r.completed input) → more name) :
    Tracks files (missed + 1) more paths (FileRun.takeInput roots r input) fewer := by
  obtain ⟨f, hstep, -⟩ := takeInput_of_fails hfails
  obtain ⟨log, hfail⟩ := fail_eq { r with generator := r.generator.record (r.completed input) }
    input f
  rw [hstep, hfail]
  refine { h with
    failed := by simp only [h.failed]; omega
    classes := fun name hname => ?_ }
  have hnot := not_or.1 (mt (hmore name) hname)
  rw [get?_record, published?_eq_none_iff.2 hnot.2, Option.none_or, h.classes name hnot.1]

end Tracks

/-! ### All inputs -/

theorem tracks_remaining (h : StubsApart roots r.files inputs) :
    ∃ missed, Tracks r.files missed (LeftBehind roots r inputs) (NamesLeftBehind roots r inputs)
        (inputs.foldl (takeInput roots) r)
        ((remaining roots r inputs).foldl (takeInput roots) r) ∧
      ((remaining roots r inputs).foldl (takeInput roots) r).failed = r.failed := by
  induction inputs using List.reverseRecOn with
  | nil => exact ⟨0, .refl _ _ r, rfl⟩
  | append_singleton inputs input ih =>
    obtain ⟨missed, htracks, hfailed⟩ := ih fun first hfirst other hother =>
      h first (List.mem_append_left _ hfirst) other (List.mem_append_left _ hother)
    have htracks := htracks.widen fun path hpath => NamesLeftBehind.append hpath input
    rw [remaining_append, List.foldl_append, List.foldl_append, List.foldl_cons, List.foldl_nil]
    by_cases hfails : Fails roots (inputs.foldl (takeInput roots) r) input
    · rw [if_pos hfails, List.foldl_nil]
      refine ⟨missed + 1, htracks.leave_out hfails fun name hname => ?_, hfailed⟩
      by_cases hmem : name ∈ publishedNames ((inputs.foldl (takeInput roots) r).completed input)
      · exact leftBehind_append hfails hmem
      · exact (hname.resolve_right hmem).append hmem
    · rw [if_neg hfails, List.foldl_cons, List.foldl_nil]
      have hnext : Tracks r.files missed (LeftBehind roots r (inputs ++ [input]))
          (NamesLeftBehind roots r (inputs ++ [input]))
          (takeInput roots (inputs.foldl (takeInput roots) r) input)
          (takeInput roots ((remaining roots r inputs).foldl (takeInput roots) r) input) := by
        refine htracks.takeInput ?_ (fun name hname hnot => hname.append hnot) ?_
        · rintro path hpath ⟨before, first, after, hinputs, -, hstub, -⟩
          have hfirst : first ∈ inputs ++ [input] := by rw [hinputs]; simp
          exact h first hfirst input (by simp) path hpath hstub
        · intro path hpath name hname hbehind
          exact ⟨inputs, input, [], rfl, hfails, hpath, name, hname, hbehind⟩
      have hcount : (takeInput roots (inputs.foldl (takeInput roots) r) input).failed =
          (inputs.foldl (takeInput roots) r).failed := not_not.1 hfails
      have hbefore := htracks.failed
      have hafter := hnext.failed
      exact ⟨missed, hnext, by omega⟩

/-- Where no stub is written over an input, the inputs that do not fail come to the same without
those that fail, but for the stubs that name a type whose class was last remembered for a failed
input. What a failed input leaves behind are its classes, and these only if all that is wrong with
it shows in its expansion. -/
theorem leaving_out_failures (g : Generator) (files : Files) (roots : Roots) (inputs : List String)
    (h : StubsApart roots (prepared g files roots).files inputs) :
    let p := prepared g files roots
    let all := (start g files).run roots inputs
    let fewer := (start g files).run roots (remaining roots p inputs)
    fewer.halt = all.halt ∧ fewer.failed = 0 ∧
      (∀ path, fewer.files.content? path = all.files.content? path ∨
        NamesLeftBehind roots p inputs path) ∧
      ∀ r input, Fails roots r input →
        (takeInput roots r input).files = r.files ∧
        ((takeInput roots r input).generator = r.generator ∨
          ∃ source interfaces f, load r.files input = .ok source ∧
            r.generator.read source = .ok interfaces ∧
            Generator.expand source interfaces = .error f ∧
            (takeInput roots r input).generator = r.generator.record interfaces) := by
  intro p all fewer
  obtain ⟨log, hall⟩ := run_eq g files roots inputs
  obtain ⟨log', hfewer⟩ := run_eq g files roots (remaining roots p inputs)
  obtain ⟨missed, htracks, hfailed⟩ := tracks_remaining h
  refine ⟨?_, ?_, fun path => ?_, fun r input hfails => ?_⟩
  · change ((start g files).run roots _).halt = ((start g files).run roots _).halt
    rw [hall, hfewer]
    exact htracks.halt
  · change ((start g files).run roots _).failed = 0
    rw [hfewer]
    exact hfailed.trans (generator_prepared g files roots).2
  · change ((start g files).run roots _).files.content? path =
      ((start g files).run roots _).files.content? path ∨ _
    rw [hall, hfewer]
    by_cases hpath : NamesLeftBehind roots p inputs path
    · exact .inr hpath
    · exact .inl (htracks.files.contents path hpath).symm
  · obtain ⟨f, hstep, hphase⟩ := takeInput_of_fails hfails
    obtain ⟨log, hfail⟩ := fail_eq { r with generator := r.generator.record (r.completed input) }
      input f
    rw [hstep, hfail]
    refine ⟨rfl, ?_⟩
    rcases hphase with hnothing | ⟨source, hload, hread, hexpand⟩
    · rw [hnothing]
      exact .inl rfl
    · exact .inr ⟨source, _, f, hload, hread, hexpand, rfl⟩

/-- A class, and a block that does not expand because a type without a name has no table. -/
def unexpanded : String :=
  "#[lua_methods]\nimpl A \x7b\x7d\n#[lua_methods]\nimpl (u8,) \x7b\n    fn f() \x7b\x7d\n\x7d\n"

/-- Two sources, of which the second names the class of the first. -/
def namingFailed : Files :=
  ⟨[(["a.rs"], unexpanded.toUTF8.toList),
    (["b.rs"], "#[lua_methods]\nimpl B \x7b\n    fn g(x: A) \x7b\x7d\n\x7d\n".toUTF8.toList)],
    []⟩

def beforeUnexpanded : FileRun :=
  prepared (.fresh .default []) namingFailed ⟨".", some "types"⟩

theorem takeInput_unexpanded :
    takeInput ⟨".", some "types"⟩ beforeUnexpanded "a.rs" =
      { beforeUnexpanded with
        generator := beforeUnexpanded.generator.record
          (Generator.completed .default unexpanded) }.fail "a.rs"
        (.single ⟨.unnamedInterface, some 4, some 6⟩) := by
  have hload : load beforeUnexpanded.files "a.rs" = .ok unexpanded :=
    eq_ok_of_toOption (by decide +kernel)
  have hread : beforeUnexpanded.generator.read unexpanded =
      .ok (Generator.completed .default unexpanded) := by
    have hsome : (beforeUnexpanded.generator.read unexpanded).toOption.isSome := by decide +kernel
    change (Generator.fresh .default []).read unexpanded = _
    rw [Generator.completed]
    cases hread : (Generator.fresh .default []).read unexpanded with
    | ok interfaces => rfl
    | error fault =>
      change ((Generator.fresh .default []).read unexpanded).toOption.isSome at hsome
      rw [hread] at hsome
      cases hsome
  obtain ⟨text, hexpand⟩ := expand_of_read hread
  have hfailures : ((Generator.completed .default unexpanded).filterMap fun i =>
      Fault.failure? (Fault.ofExcept i.expansion)) =
        [.single ⟨.unnamedInterface, some 4, some 6⟩] := by decide +kernel
  rw [hfailures] at hexpand
  refine takeInput_of_unexpanded (by decide +kernel) (by decide +kernel) hload hread ?_ hexpand _
  intro hnothing
  rw [hnothing] at hfailures
  cases hfailures

theorem remaining_namingFailed :
    remaining ⟨".", some "types"⟩ beforeUnexpanded ["a.rs", "b.rs"] = ["b.rs"] := by
  have hfails : Fails ⟨".", some "types"⟩ beforeUnexpanded "a.rs" := by
    rw [Fails, takeInput_unexpanded]
    exact Nat.succ_ne_self _
  have hlast : ¬Fails ⟨".", some "types"⟩
      (takeInput ⟨".", some "types"⟩ beforeUnexpanded "a.rs") "b.rs" := by
    rw [takeInput_unexpanded]
    decide +kernel
  rw [remaining, if_pos hfails, remaining, if_neg hlast, remaining]

theorem leaving_out_failures_bindings :
    (runOver namingFailed ["b.rs"]).failed = 0 ∧
      (runOver namingFailed ["b.rs"]).files.content? ["b_lua.rs"] =
        (runOver namingFailed ["a.rs", "b.rs"]).files.content? ["b_lua.rs"] := by
  obtain ⟨-, hfailed, hcontents, -⟩ := leaving_out_failures (.fresh .default []) namingFailed
    ⟨".", some "types"⟩ ["a.rs", "b.rs"] (by decide +kernel)
  have hremaining : remaining ⟨".", some "types"⟩
      (prepared (.fresh .default []) namingFailed ⟨".", some "types"⟩) ["a.rs", "b.rs"] =
        ["b.rs"] := remaining_namingFailed
  rw [hremaining] at hfailed hcontents
  refine ⟨hfailed, (hcontents ["b_lua.rs"]).resolve_right ?_⟩
  rintro ⟨before, input, after, hinputs, -, hstub, -⟩
  have hinput : input ∈ ["a.rs", "b.rs"] := by rw [hinputs]; simp
  have hplaces : ∀ input ∈ ["a.rs", "b.rs"], stubPlace? ⟨".", some "types"⟩
      (prepared (.fresh .default []) namingFailed ⟨".", some "types"⟩).files input ≠
        some (some ["b_lua.rs"]) := by decide +kernel
  exact hplaces input hinput hstub

/-- The class of the failed source is known in the stub of the other one, but not without the
failed source. All output paths differ, and none is that of an input. -/
theorem failed_class_is_known :
    let p := prepared (.fresh .default []) namingFailed ⟨".", some "types"⟩
    remaining ⟨".", some "types"⟩ p ["a.rs", "b.rs"] = ["b.rs"] ∧
      (["a.rs", "b.rs"].map fun input =>
        (p.files.place? (outputName ⟨".", some "types"⟩ input),
          stubPlace? ⟨".", some "types"⟩ p.files input)) =
        [(some ["a_lua.rs"], some (some ["types", "a.lua"])),
          (some ["b_lua.rs"], some (some ["types", "b.lua"]))] ∧
      (runOver namingFailed ["a.rs", "b.rs"]).files.content? ["types", "b.lua"] =
        some ("---@meta\n-- LuaCATS type definitions for b\n-- Auto-generated, do not edit\n\n" ++
          "---@class B\nB = \x7b\x7d\n\n---@param x A\nfunction B:g(x) end\n").toUTF8.toList ∧
      (runOver namingFailed ["b.rs"]).files.content? ["types", "b.lua"] =
        some ("---@meta\n-- LuaCATS type definitions for b\n-- Auto-generated, do not edit\n\n" ++
          "---@class B\nB = \x7b\x7d\n\n---@param x any\nfunction B:g(x) end\n").toUTF8.toList := by
  intro p
  refine ⟨remaining_namingFailed, by decide +kernel, ?_, by decide +kernel⟩
  change ((takeInput _ (takeInput _ beforeUnexpanded "a.rs") "b.rs").andThen
    finish).files.content? _ = _
  rw [takeInput_unexpanded]
  decide +kernel

end LuaBindings.FileRun
