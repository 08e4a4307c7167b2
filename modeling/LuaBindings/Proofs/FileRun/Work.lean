import LuaBindings.Proofs.CodePoints
import LuaBindings.Proofs.Files
import LuaBindings.Proofs.Stub.ClassNames

/-!
# What an input comes to

An input is loaded, read and expanded without regard to the inputs before it; only its stub
depends on what they have published. So a step of a run is the work that the input comes to,
found from the files and then carried out (`takeInput_of_work`). Where no write touches the
inputs, their work stays what it was (`work?_congr`).
-/

set_option autoImplicit false

namespace LuaBindings.FileRun

inductive Work where
  /-- Nothing is written, but interfaces that were complete are remembered. -/
  | failed (interfaces : List Interface) (failure : Failure)
  | skipped
  | written (interfaces : List Interface) (output : Path) (expansion : String)
    (stub : Option Path)

namespace Work

def isFailed : Work → Bool
  | failed .. => true
  | _ => false

def isWritten : Work → Bool
  | written .. => true
  | _ => false

def interfaces : Work → List Interface
  | failed interfaces _ => interfaces
  | skipped => []
  | written interfaces .. => interfaces

def stub? : Work → Option Path
  | written _ _ _ stub => stub
  | _ => none

def paths : Work → List Path
  | written _ output _ stub => output :: stub.toList
  | _ => []

/-- What is written, once a generator has remembered the interfaces. -/
def writes (g : Generator) (input : String) : Work → List (Path × List UInt8)
  | written interfaces output expansion stub =>
    (output, expansion.toUTF8.toList) :: stub.toList.map fun path =>
      (path, (g.stub (Text.PathName.stem input) interfaces).toUTF8.toList)
  | _ => []

theorem map_fst_writes (g : Generator) (input : String) (w : Work) :
    (w.writes g input).map Prod.fst = w.paths := by
  cases w with
  | written interfaces output expansion stub => cases stub <;> rfl
  | failed interfaces failure => rfl
  | skipped => rfl

def carryOut (w : Work) (roots : Roots) (input : String) (r : FileRun) : FileRun :=
  match w with
  | failed _ failure => r.fail input failure
  | skipped => r.say s!"  >> warning: no #[lua_methods] impl blocks in {input}, skipping..."
  | w@(written ..) =>
    { r.say s!"  {input} => {outputName roots input}" with
      files := r.files.putAll (w.writes r.generator input) }

def take (w : Work) (roots : Roots) (input : String) (r : FileRun) : FileRun :=
  w.carryOut roots input { r with generator := r.generator.record w.interfaces }

end Work

/-! ### Finding the work -/

def stubPlace? (roots : Roots) (files : Files) (input : String) : Option (Option Path) :=
  match roots.stubs with
  | none => some none
  | some directory => (files.place? (stubName directory input)).map some

/-- What complete interfaces come to, if their paths can be written to. -/
def emitWork? (roots : Roots) (files : Files) (input source : String)
    (interfaces : List Interface) : Option Work :=
  match Generator.expand source interfaces with
  | .error f => some (.failed interfaces f)
  | .ok expansion =>
    (files.place? (outputName roots input)).bind fun output =>
      (stubPlace? roots files input).map fun stub => .written interfaces output expansion stub

def sourceWork? (target : RuntimeTarget) (roots : Roots) (files : Files) (input source : String) :
    Option Work :=
  match (Generator.fresh target []).read source with
  | .error (.diagnosed f) => some (.failed [] f)
  | .error .codePoint => none
  | .ok [] => some .skipped
  | .ok interfaces => emitWork? roots files input source interfaces

def work? (target : RuntimeTarget) (roots : Roots) (files : Files) (input : String) :
    Option Work :=
  if hasNull input then none
  else
    match load files input with
    | .error f => some (.failed [] f)
    | .ok source => sourceWork? target roots files input source

variable {r : FileRun} {roots : Roots} {input source : String} {interfaces : List Interface}
  {w : Work}

theorem write_of_place {name : String} {path : Path} (h : r.files.place? name = some path)
    (text : String) :
    r.write name text = { r with files := r.files.put path text.toUTF8.toList } := by
  rw [write, Files.write_of_place h]

theorem isSome_halt_write {name : String} (h : r.files.place? name = none) (text : String) :
    (r.write name text).halt.isSome := by
  obtain ⟨fault, hwrite⟩ := Files.write_of_place_eq_none h text.toUTF8.toList
  rw [write, hwrite]
  rfl

theorem andThen_of_running {f : FileRun → FileRun} (h : r.halt = none) : r.andThen f = f r := by
  rw [andThen, h]
  rfl

theorem andThen_of_halted {f : FileRun → FileRun} (h : r.halt.isSome) : r.andThen f = r := if_pos h

theorem write_andThen {name : String} {path : Path} {f : FileRun → FileRun}
    (hrunning : r.halt = none) (h : r.files.place? name = some path) (text : String) :
    (r.write name text).andThen f =
      f { r with files := r.files.put path text.toUTF8.toList } := by
  rw [write_of_place h]
  exact andThen_of_running hrunning

theorem stubPlace?_congr {files other : Files} (h : files.isDirectory = other.isDirectory)
    (roots : Roots) (input : String) :
    stubPlace? roots files input = stubPlace? roots other input := by
  simp only [stubPlace?, Files.place?_congr h]

/-- Behind a first write, the stub has the place that it had. -/
theorem stubPlace?_put {name : String} {path : Path} {files : Files}
    (h : files.place? name = some path) (content : List UInt8) :
    stubPlace? roots (files.put path content) input = stubPlace? roots files input :=
  stubPlace?_congr (Files.isDirectory_put (Files.enclosed_of_locate (Files.locate_of_place h))
    content) roots input

/-- Complete interfaces fail to expand, or their bindings have a place, and so has the stub if
there is to be one. -/
theorem emitWork_cases {files : Files}
    (h : emitWork? roots files input source interfaces = some w) :
    (∃ f, Generator.expand source interfaces = .error f ∧ w = .failed interfaces f) ∨
      ∃ expansion output stub, Generator.expand source interfaces = .ok expansion ∧
        files.place? (outputName roots input) = some output ∧
        stubPlace? roots files input = some stub ∧
        w = .written interfaces output expansion stub := by
  rw [emitWork?] at h
  cases hexpand : Generator.expand source interfaces with
  | error f =>
    rw [hexpand] at h
    cases h
    exact .inl ⟨f, rfl, rfl⟩
  | ok expansion =>
    rw [hexpand] at h
    obtain ⟨output, houtput, h⟩ := Option.bind_eq_some_iff.1 h
    obtain ⟨stub, hstub, rfl⟩ := Option.map_eq_some_iff.1 h
    exact .inr ⟨expansion, output, stub, rfl, houtput, hstub, rfl⟩

theorem interfaces_of_emitWork {files : Files}
    (h : emitWork? roots files input source interfaces = some w) : w.interfaces = interfaces := by
  obtain ⟨f, -, rfl⟩ | ⟨expansion, output, stub, -, -, -, rfl⟩ := emitWork_cases h <;> rfl

theorem writeStub_of_place {stub : Option Path} (h : stubPlace? roots r.files input = some stub) :
    writeStub roots input interfaces r =
      { r with
        files := r.files.putAll (stub.toList.map fun path =>
          (path, (r.generator.stub (Text.PathName.stem input) interfaces).toUTF8.toList)) } := by
  rw [stubPlace?] at h
  rw [writeStub]
  cases hstubs : roots.stubs with
  | none =>
    rw [hstubs] at h
    cases h
    rfl
  | some directory =>
    rw [hstubs] at h
    obtain ⟨path, hpath, rfl⟩ := Option.map_eq_some_iff.1 h
    exact write_of_place hpath _

theorem isSome_halt_writeStub (h : stubPlace? roots r.files input = none) :
    (writeStub roots input interfaces r).halt.isSome := by
  rw [stubPlace?] at h
  rw [writeStub]
  cases hstubs : roots.stubs with
  | none =>
    rw [hstubs] at h
    cases h
  | some directory =>
    rw [hstubs] at h
    exact isSome_halt_write (Option.map_eq_none_iff.1 h) _

theorem emit_of_work (hrunning : r.halt = none)
    (h : emitWork? roots r.files input source interfaces = some w) :
    emit roots input source interfaces r = w.carryOut roots input r := by
  rw [emit]
  obtain ⟨f, hexpand, rfl⟩ | ⟨expansion, output, stub, hexpand, houtput, hstub, rfl⟩ :=
    emitWork_cases h
  · rw [hexpand]
    rfl
  · rw [hexpand]
    dsimp only
    rw [write_andThen (r := r.say _) hrunning houtput]
    exact writeStub_of_place ((stubPlace?_put houtput _).trans hstub)

theorem isSome_halt_emit (hrunning : r.halt = none)
    (h : emitWork? roots r.files input source interfaces = none) :
    (emit roots input source interfaces r).halt.isSome := by
  rw [emitWork?] at h
  rw [emit]
  cases hexpand : Generator.expand source interfaces with
  | error f =>
    rw [hexpand] at h
    cases h
  | ok expansion =>
    rw [hexpand] at h
    dsimp only at h ⊢
    cases houtput : r.files.place? (outputName roots input) with
    | none =>
      have hhalt := isSome_halt_write (r := r.say s!"  {input} => {outputName roots input}")
        houtput expansion
      rw [andThen_of_halted hhalt]
      exact hhalt
    | some output =>
      rw [houtput, Option.bind_some] at h
      rw [write_andThen (r := r.say _) hrunning houtput]
      exact isSome_halt_writeStub ((stubPlace?_put houtput _).trans (Option.map_eq_none_iff.1 h))

theorem takeSource_of_work (hrunning : r.halt = none)
    (h : sourceWork? r.generator.target roots r.files input source = some w) :
    takeSource roots input source r = w.take roots input r := by
  have hread : r.generator.read source = (Generator.fresh r.generator.target []).read source := rfl
  rw [sourceWork?, ← hread] at h
  rw [takeSource]
  generalize r.generator.read source = result at h
  rcases result with (_ | _) | _ | ⟨i, rest⟩
  · cases h
    rfl
  · cases h
  · cases h
    rfl
  · rw [Work.take, interfaces_of_emitWork h]
    exact emit_of_work (r := { r with generator := r.generator.record (i :: rest) }) hrunning h

theorem isSome_halt_takeSource (hrunning : r.halt = none)
    (h : sourceWork? r.generator.target roots r.files input source = none) :
    (takeSource roots input source r).halt.isSome := by
  have hread : r.generator.read source = (Generator.fresh r.generator.target []).read source := rfl
  rw [sourceWork?, ← hread] at h
  rw [takeSource]
  generalize r.generator.read source = result at h
  rcases result with (_ | _) | _ | ⟨i, rest⟩
  · cases h
  · rfl
  · cases h
  · exact isSome_halt_emit (r := { r with generator := r.generator.record (i :: rest) }) hrunning h

/-- A step of a run takes over what the input comes to. -/
theorem takeInput_of_work (hrunning : r.halt = none)
    (h : work? r.generator.target roots r.files input = some w) :
    takeInput roots r input = w.take roots input r := by
  rw [work?] at h
  rw [takeInput, andThen_of_running hrunning]
  cases hnull : hasNull input with
  | true =>
    rw [hnull] at h
    cases h
  | false =>
    rw [hnull] at h
    rw [if_neg Bool.false_ne_true] at h ⊢
    cases hload : load r.files input with
    | error f =>
      rw [hload] at h
      cases h
      rfl
    | ok source =>
      rw [hload] at h
      exact takeSource_of_work hrunning h

theorem isSome_halt_takeInput (hrunning : r.halt = none)
    (h : work? r.generator.target roots r.files input = none) :
    (takeInput roots r input).halt.isSome := by
  rw [work?] at h
  rw [takeInput, andThen_of_running hrunning]
  cases hnull : hasNull input with
  | true => rfl
  | false =>
    rw [hnull] at h
    rw [if_neg Bool.false_ne_true] at h ⊢
    cases hload : load r.files input with
    | error f =>
      rw [hload] at h
      cases h
    | ok source =>
      rw [hload] at h
      exact isSome_halt_takeSource hrunning h

/-! ### What the work depends on -/

variable {target : RuntimeTarget} {files other : Files}

theorem sourceWork?_congr (h : files.isDirectory = other.isDirectory) (target : RuntimeTarget)
    (roots : Roots) (input source : String) :
    sourceWork? target roots files input source = sourceWork? target roots other input source := by
  simp only [sourceWork?, emitWork?, Files.place?_congr h, stubPlace?_congr h]

theorem load_congr {name : String} (h : (files.read name).toOption = (other.read name).toOption) :
    (load files name).toOption = (load other name).toOption := by
  rw [load, load]
  cases hfiles : files.read name with
  | error fault =>
    rw [hfiles] at h
    cases hother : other.read name with
    | error fault' => rfl
    | ok bytes =>
      rw [hother] at h
      cases h
  | ok bytes =>
    rw [hfiles] at h
    rw [eq_ok_of_toOption h.symm]

/-- The work of an input that does not fail is found wherever the input is read alike. -/
theorem work?_congr (h : files.Alike other [input])
    (hwork : work? target roots files input = some w) (hfine : w.isFailed = false) :
    work? target roots other input = some w := by
  rw [work?] at hwork ⊢
  split at hwork
  · cases hwork
  · rename_i hnull
    rw [if_neg hnull]
    cases hload : load files input with
    | error f =>
      rw [hload] at hwork
      cases hwork
      cases hfine
    | ok source =>
      have hother : (load other input).toOption = some source := by
        rw [← load_congr (h.contents input List.mem_cons_self), hload]
        rfl
      rw [hload] at hwork
      rw [eq_ok_of_toOption hother]
      exact (sourceWork?_congr h.directories target roots input source).symm.trans hwork

theorem enclosed_of_place {name : String} {path : Path} (h : files.place? name = some path) :
    files.Enclosed path := Files.enclosed_of_locate (Files.locate_of_place h)

theorem enclosed_of_stubPlace {stub : Option Path}
    (h : stubPlace? roots files input = some stub) : ∀ path ∈ stub, files.Enclosed path := by
  rw [stubPlace?] at h
  rintro path hpath
  cases hstubs : roots.stubs with
  | none =>
    rw [hstubs] at h
    cases h
    cases hpath
  | some directory =>
    rw [hstubs] at h
    obtain ⟨place, hplace, rfl⟩ := Option.map_eq_some_iff.1 h
    cases hpath
    exact enclosed_of_place hplace

theorem enclosed_of_emitWork (h : emitWork? roots files input source interfaces = some w) :
    ∀ path ∈ w.paths, files.Enclosed path := by
  obtain ⟨f, -, rfl⟩ | ⟨expansion, output, stub, -, houtput, hstub, rfl⟩ := emitWork_cases h
  · rintro path hpath
    cases hpath
  · rintro path hpath
    rcases List.mem_cons.1 hpath with rfl | hpath
    · exact enclosed_of_place houtput
    · exact enclosed_of_stubPlace hstub path (Option.mem_toList.1 hpath)

/-- What is written comes from complete interfaces. -/
theorem exists_emitWork (h : work? target roots files input = some w) (hwritten : w.isWritten) :
    ∃ source interfaces, load files input = .ok source ∧
      emitWork? roots files input source interfaces = some w := by
  rw [work?] at h
  split at h
  · cases h
  · cases hload : load files input with
    | error f =>
      rw [hload] at h
      cases h
      cases hwritten
    | ok source =>
      rw [hload] at h
      dsimp only at h
      rw [sourceWork?] at h
      generalize (Generator.fresh target []).read source = result at h
      rcases result with (_ | _) | _ | ⟨i, rest⟩
      · cases h
        cases hwritten
      · cases h
      · cases h
        cases hwritten
      · exact ⟨source, i :: rest, rfl, h⟩

theorem enclosed_of_work (h : work? target roots files input = some w) :
    ∀ path ∈ w.paths, files.Enclosed path := by
  cases hwritten : w.isWritten with
  | true =>
    obtain ⟨source, interfaces, -, hemit⟩ := exists_emitWork h hwritten
    exact enclosed_of_emitWork hemit
  | false =>
    intro path hpath
    cases w with
    | written interfaces output expansion stub => cases hwritten
    | failed interfaces failure => cases hpath
    | skipped => cases hpath

end LuaBindings.FileRun
