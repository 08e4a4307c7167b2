import LuaBindings.Proofs.FileRun.Work

/-!
# Inputs one after the other

Where no write changes an input, a run over inputs that do not fail is their work as it is found
before the first of them (`foldl_takeInput_of_harmless`). Where no input is written to, the inputs
of a run that succeeds do not fail (`planned_of_succeeds`).
-/

set_option autoImplicit false

namespace LuaBindings.FileRun

def Succeeds (r : FileRun) : Prop := r.halt = none ∧ r.failed = 0

instance (r : FileRun) : Decidable r.Succeeds :=
  inferInstanceAs (Decidable (r.halt = none ∧ r.failed = 0))

def writesAll (work : String → Work) : Generator → List String → List (Path × List UInt8)
  | _, [] => []
  | g, input :: rest =>
    let g := g.record (work input).interfaces
    (work input).writes g input ++ writesAll work g rest

def interfacesAll (work : String → Work) (inputs : List String) : List Interface :=
  inputs.flatMap fun input => (work input).interfaces

theorem writesAll_append (work : String → Work) (g : Generator) (inputs rest : List String) :
    writesAll work g (inputs ++ rest) =
      writesAll work g inputs ++ writesAll work (g.record (interfacesAll work inputs)) rest := by
  induction inputs generalizing g with
  | nil => rfl
  | cons input inputs ih =>
    have hrecord : (g.record (work input).interfaces).record (interfacesAll work inputs) =
        g.record (interfacesAll work (input :: inputs)) := g.record_record _ _
    rw [List.cons_append, writesAll, ih, hrecord, writesAll, List.append_assoc]

theorem map_fst_writesAll (work : String → Work) (g : Generator) (inputs : List String) :
    (writesAll work g inputs).map Prod.fst = inputs.flatMap fun input => (work input).paths := by
  induction inputs generalizing g with
  | nil => rfl
  | cons input inputs ih =>
    rw [writesAll, List.map_append, Work.map_fst_writes, ih, List.flatMap_cons]

def Untouched (work : String → Work) (files : Files) (inputs : List String) : Prop :=
  ∀ input ∈ inputs, ∀ path ∈ (work input).paths, ∀ other ∈ inputs,
    (files.locate other).toOption ≠ some path

instance (work : String → Work) (files : Files) (inputs : List String) :
    Decidable (Untouched work files inputs) :=
  inferInstanceAs (Decidable (∀ input ∈ inputs, ∀ path ∈ (work input).paths, ∀ other ∈ inputs,
    (files.locate other).toOption ≠ some path))

variable {target : RuntimeTarget} {roots : Roots} {files : Files} {work : String → Work}
  {inputs rest : List String} {input : String} {r : FileRun} {w : Work}

theorem Untouched.of_cons (h : Untouched work files (input :: rest)) :
    Untouched work files rest :=
  fun other hother path hpath name hname =>
    h other (List.mem_cons_of_mem _ hother) path hpath name (List.mem_cons_of_mem _ hname)

theorem Untouched.perm (h : Untouched work files inputs) (hperm : inputs.Perm rest) :
    Untouched work files rest :=
  fun other hother path hpath name hname =>
    h other (hperm.mem_iff.2 hother) path hpath name (hperm.mem_iff.2 hname)

/-- The inputs come to the given work, which is no failure, and none is written to. -/
structure Planned (target : RuntimeTarget) (roots : Roots) (files : Files)
    (work : String → Work) (inputs : List String) : Prop where
  found : ∀ input ∈ inputs, work? target roots files input = some (work input)
  fine : ∀ input ∈ inputs, (work input).isFailed = false
  untouched : Untouched work files inputs

theorem Planned.perm (h : Planned target roots files work inputs) (hperm : inputs.Perm rest) :
    Planned target roots files work rest :=
  ⟨fun other hother => h.found other (hperm.mem_iff.2 hother),
    fun other hother => h.fine other (hperm.mem_iff.2 hother), h.untouched.perm hperm⟩

/-! ### One input -/

/-- Work that is no failure shows in what is remembered and written. -/
structure Carried (r after : FileRun) (interfaces : List Interface)
    (writes : List (Path × List UInt8)) : Prop where
  running : after.halt = none
  failed : after.failed = r.failed
  generator : after.generator = r.generator.record interfaces
  files : after.files = r.files.putAll writes

theorem carried_take (hrunning : r.halt = none) (hfine : w.isFailed = false) (roots : Roots)
    (input : String) :
    Carried r (w.take roots input r) w.interfaces
      (w.writes (r.generator.record w.interfaces) input) := by
  cases w with
  | failed interfaces failure => cases hfine
  | skipped => exact ⟨hrunning, rfl, rfl, rfl⟩
  | written interfaces output expansion stub => exact ⟨hrunning, rfl, rfl, rfl⟩

/-- A failed input is counted. -/
theorem failed_take (w : Work) (roots : Roots) (input : String) (r : FileRun) :
    (w.take roots input r).failed = r.failed + if w.isFailed then 1 else 0 := by
  cases w with
  | failed interfaces failure => rfl
  | skipped => rfl
  | written interfaces output expansion stub => rfl

def Harmless (files : Files) (writes : List (Path × List UInt8)) (inputs : List String) : Prop :=
  ∀ entry ∈ writes, ∀ input ∈ inputs,
    (files.locate input).toOption = some entry.1 → files.content? entry.1 = some entry.2

theorem Harmless.of_untouched {writes : List (Path × List UInt8)}
    (h : ∀ path ∈ writes.map Prod.fst, ∀ input ∈ inputs, (files.locate input).toOption ≠ some path) :
    Harmless files writes inputs :=
  fun entry hentry input hinput hlocate =>
    absurd hlocate (h entry.1 (List.mem_map_of_mem hentry) input hinput)

/-- The input's own writes leave the inputs as they were. -/
theorem alike_take (halike : files.Alike r.files (input :: rest))
    (hwork : work? target roots files input = some w) (hfine : w.isFailed = false)
    (hrunning : r.halt = none)
    (hharmless : Harmless files (w.writes (r.generator.record w.interfaces) input) rest) :
    files.Alike (w.take roots input r).files rest := by
  rw [(carried_take hrunning hfine roots input).files]
  refine halike.of_cons.putAll (fun entry hentry => ?_) hharmless
  refine enclosed_of_work hwork entry.1 ?_
  rw [← w.map_fst_writes (r.generator.record w.interfaces) input]
  exact List.mem_map_of_mem hentry

/-! ### All inputs -/

theorem foldl_takeInput_of_harmless
    (hfound : ∀ input ∈ inputs, work? target roots files input = some (work input))
    (hfine : ∀ input ∈ inputs, (work input).isFailed = false)
    (hharmless : Harmless files (writesAll work r.generator inputs) inputs)
    (hrunning : r.halt = none) (htarget : r.generator.target = target)
    (halike : files.Alike r.files inputs) :
    Carried r (inputs.foldl (takeInput roots) r) (interfacesAll work inputs)
      (writesAll work r.generator inputs) := by
  induction inputs generalizing r with
  | nil => exact ⟨hrunning, rfl, rfl, rfl⟩
  | cons input rest ih =>
    rw [List.forall_mem_cons] at hfound hfine
    have hstep : takeInput roots r input = (work input).take roots input r := by
      subst htarget
      exact takeInput_of_work hrunning
        (work?_congr ⟨halike.directories, by simpa using halike.contents input List.mem_cons_self⟩
          hfound.1 hfine.1)
    have hfirst := carried_take hrunning hfine.1 roots input
    have hlater : ∀ entry ∈ writesAll work r.generator (input :: rest), ∀ other ∈ rest,
        (files.locate other).toOption = some entry.1 → files.content? entry.1 = some entry.2 :=
      fun entry hentry other hother => hharmless entry hentry other (List.mem_cons_of_mem _ hother)
    have hrest := ih (r := (work input).take roots input r) hfound.2 hfine.2
      (by
        rw [hfirst.generator]
        exact fun entry hentry => hlater entry (List.mem_append_right _ hentry))
      hfirst.running (by rw [hfirst.generator]; exact htarget)
      (alike_take halike hfound.1 hfine.1 hrunning fun entry hentry =>
        hlater entry (List.mem_append_left _ hentry))
    rw [List.foldl_cons, hstep]
    refine ⟨hrest.running, hrest.failed.trans hfirst.failed, ?_, ?_⟩
    · rw [hrest.generator, hfirst.generator]
      exact r.generator.record_record _ _
    · rw [hrest.files, hfirst.files, hfirst.generator, ← Files.putAll_append]
      rfl

theorem foldl_takeInput_of_planned (hplanned : Planned target roots files work inputs)
    (hrunning : r.halt = none) (htarget : r.generator.target = target)
    (halike : files.Alike r.files inputs) :
    Carried r (inputs.foldl (takeInput roots) r) (interfacesAll work inputs)
      (writesAll work r.generator inputs) := by
  refine foldl_takeInput_of_harmless hplanned.found hplanned.fine (.of_untouched ?_) hrunning
    htarget halike
  rw [map_fst_writesAll]
  intro path hpath
  obtain ⟨input, hinput, hpath⟩ := List.mem_flatMap.1 hpath
  exact hplanned.untouched input hinput path hpath

/-- Where a run does not halt, each input is taken by its work. -/
theorem exists_work_of_running (h : ((input :: rest).foldl (takeInput roots) r).halt = none) :
    r.halt = none ∧ ∃ w, work? r.generator.target roots r.files input = some w ∧
      (input :: rest).foldl (takeInput roots) r =
        rest.foldl (takeInput roots) (w.take roots input r) := by
  have hrunning : r.halt = none := by
    cases hhalt : r.halt with
    | none => rfl
    | some halt =>
      have hhalted : r.halt.isSome := by rw [hhalt]; rfl
      rw [foldl_takeInput_of_halted roots hhalted, hhalt] at h
      cases h
  refine ⟨hrunning, ?_⟩
  cases hwork : work? r.generator.target roots r.files input with
  | none =>
    have hhalted := isSome_halt_takeInput hrunning hwork
    rw [List.foldl_cons, foldl_takeInput_of_halted roots hhalted] at h
    rw [h] at hhalted
    cases hhalted
  | some w => exact ⟨w, rfl, by rw [List.foldl_cons, takeInput_of_work hrunning hwork]⟩

theorem failed_le_foldl (h : (inputs.foldl (takeInput roots) r).halt = none) :
    r.failed ≤ (inputs.foldl (takeInput roots) r).failed := by
  induction inputs generalizing r with
  | nil => exact Nat.le_refl _
  | cons input rest ih =>
    obtain ⟨-, w, -, hfold⟩ := exists_work_of_running h
    rw [hfold] at h ⊢
    refine Nat.le_trans ?_ (ih h)
    rw [failed_take]
    exact Nat.le_add_right _ _

def workOf (target : RuntimeTarget) (roots : Roots) (files : Files) (input : String) : Work :=
  (work? target roots files input).getD .skipped

theorem planned_of_succeeds (halike : files.Alike r.files inputs)
    (htarget : r.generator.target = target)
    (huntouched : Untouched (workOf target roots files) files inputs)
    (hrunning : (inputs.foldl (takeInput roots) r).halt = none)
    (hfailed : (inputs.foldl (takeInput roots) r).failed = r.failed) :
    Planned target roots files (workOf target roots files) inputs := by
  induction inputs generalizing r with
  | nil => exact ⟨by simp, by simp, huntouched⟩
  | cons input rest ih =>
    obtain ⟨hstart, w, hwork, hfold⟩ := exists_work_of_running hrunning
    rw [hfold] at hrunning hfailed
    have hle := failed_le_foldl hrunning
    rw [hfailed, failed_take] at hle
    have hfine : w.isFailed = false := by
      cases hw : w.isFailed with
      | false => rfl
      | true =>
        rw [hw] at hle
        exact absurd hle (Nat.not_succ_le_self _)
    have hfound : work? target roots files input = some w := by
      subst htarget
      exact work?_congr ⟨halike.directories.symm,
        by simpa using (halike.contents input List.mem_cons_self).symm⟩ hwork hfine
    have hof : workOf target roots files input = w := by rw [workOf, hfound]; rfl
    have hfirst := carried_take hstart hfine roots input
    have hrest := ih (r := w.take roots input r)
      (alike_take halike hfound hfine hstart (.of_untouched fun path hpath other hother => by
        rw [w.map_fst_writes] at hpath
        exact huntouched input List.mem_cons_self path (hof ▸ hpath) other
          (List.mem_cons_of_mem _ hother)))
      (by rw [hfirst.generator]; exact htarget) huntouched.of_cons hrunning
      (hfailed.trans hfirst.failed.symm)
    refine ⟨List.forall_mem_cons.2 ⟨hof ▸ hfound, hrest.found⟩,
      List.forall_mem_cons.2 ⟨hof ▸ hfine, hrest.fine⟩, huntouched⟩

/-! ### A whole run -/

def prepared (generator : Generator) (files : Files) (roots : Roots) : FileRun :=
  prepare roots (start generator files)

/-- Making a directory leaves all contents, and may halt the run. -/
theorem makeDirectory_eq (r : FileRun) (name : String) :
    ∃ made halt, r.makeDirectory name = { r with files := made, halt := halt } ∧
      made.contents = r.files.contents := by
  rw [makeDirectory]
  split
  · exact ⟨_, _, rfl, rfl⟩
  · split
    · rename_i made hmade
      exact ⟨made, r.halt, rfl, Files.contents_makeDirectory hmade⟩
    · exact ⟨_, _, rfl, rfl⟩

theorem prepared_eq (generator : Generator) (files : Files) (roots : Roots) :
    ∃ made halt, prepared generator files roots =
        ⟨generator, made, ["=== Generating Lua bindings:"], 0, halt⟩ ∧
      made.contents = files.contents := by
  obtain ⟨made, halt, houtput, hcontents⟩ :=
    makeDirectory_eq (start generator files).announce roots.output
  rw [prepared, prepare, houtput]
  cases roots.stubs with
  | none => exact ⟨made, halt, rfl, hcontents⟩
  | some directory =>
    dsimp only
    rw [andThen]
    split
    · exact ⟨made, halt, rfl, hcontents⟩
    · obtain ⟨both, last, hstubs, hsame⟩ := makeDirectory_eq _ directory
      exact ⟨both, last, hstubs, hsame.trans hcontents⟩

theorem generator_prepared (generator : Generator) (files : Files) (roots : Roots) :
    (prepared generator files roots).generator = generator ∧
      (prepared generator files roots).failed = 0 := by
  obtain ⟨made, halt, hprepared, -⟩ := prepared_eq generator files roots
  rw [hprepared]
  exact ⟨rfl, rfl⟩

/-- The last line of the log is all that is left to do behind the inputs. -/
theorem run_eq (generator : Generator) (files : Files) (roots : Roots) (inputs : List String) :
    ∃ log, (start generator files).run roots inputs =
      { inputs.foldl (takeInput roots) (prepared generator files roots) with log := log } := by
  rw [run, andThen]
  split
  · exact ⟨_, rfl⟩
  · rw [finish]
    split
    · exact ⟨_, rfl⟩
    · exact ⟨_, rfl⟩

theorem run_of_carried {g : Generator} {interfaces : List Interface}
    {writes : List (Path × List UInt8)}
    (h : Carried (prepared g files roots) (inputs.foldl (takeInput roots) (prepared g files roots))
      interfaces writes) :
    Succeeds ((start g files).run roots inputs) ∧
      ((start g files).run roots inputs).files = (prepared g files roots).files.putAll writes := by
  obtain ⟨log, hrun⟩ := run_eq g files roots inputs
  rw [hrun]
  exact ⟨⟨h.running, h.failed.trans (generator_prepared g files roots).2⟩, h.files⟩

end LuaBindings.FileRun
