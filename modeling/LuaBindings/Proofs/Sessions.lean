import LuaBindings.FileRun
import LuaBindings.Proofs.Stub.ClassNames

/-!
# Sources one after the other

A generator remembers the classes of the sources that it has met, and nothing that it writes for
a source depends on that: in a session every source expands, or fails, as it does on its own
(`session_eq`). What is remembered behind a session are the classes of the sources whose interfaces
were complete; a source that fails before its interfaces are complete leaves no trace.
-/

set_option autoImplicit false

namespace LuaBindings

namespace Generator

def step (g : Generator) (source : String) : Except Fault String × Generator :=
  match g.read source with
  | .error fault => (.error fault, g)
  | .ok interfaces => (Fault.ofExcept (expand source interfaces), g.record interfaces)

/-- What sources expand to one after the other, and the generator behind all of them. -/
def session (g : Generator) : List String → List (Except Fault String) × Generator
  | [] => ([], g)
  | source :: rest =>
    let (result, g) := g.step source
    let (results, g) := g.session rest
    (result :: results, g)

/-- The interfaces of a source that are complete, whether or not it expands. -/
def completed (target : RuntimeTarget) (source : String) : List Interface :=
  match (fresh target []).read source with
  | .error _ => []
  | .ok interfaces => interfaces

variable {g : Generator} {source : String}

/-- Reading a source looks at nothing that is remembered. -/
theorem read_eq (g : Generator) (fixed : NameTable) (source : String) :
    g.read source = (fresh g.target fixed).read source := rfl

theorem step_fst (g : Generator) (fixed : NameTable) (source : String) :
    (g.step source).1 = ((fresh g.target fixed).step source).1 := by
  rw [step, step, g.read_eq fixed]
  cases (fresh g.target fixed).read source <;> rfl

theorem step_snd (g : Generator) (source : String) :
    (g.step source).2 = g.record (completed g.target source) := by
  rw [step, completed, g.read_eq []]
  cases (fresh g.target []).read source <;> rfl

theorem session_fst (g : Generator) (fixed : NameTable) (sources : List String) :
    (g.session sources).1 = sources.map fun source => ((fresh g.target fixed).step source).1 := by
  induction sources generalizing g with
  | nil => rfl
  | cons source rest ih =>
    change (g.step source).1 :: ((g.step source).2.session rest).1 = _
    rw [ih, g.step_fst fixed, g.step_snd]
    rfl

theorem session_snd (g : Generator) (sources : List String) :
    (g.session sources).2 = g.record (sources.flatMap (completed g.target)) := by
  induction sources generalizing g with
  | nil => rfl
  | cons source rest ih =>
    change ((g.step source).2.session rest).2 = _
    rw [ih, g.step_snd, record_record]
    rfl

/-- In a session every source comes to what it comes to with a fresh generator for the same
target, whatever annotations are fixed for that. Behind it, the table gives a name the class of the
last complete interface with that base name, and no class if there is none. One more source adds
just its complete interfaces, and nothing if it fails before they are complete. -/
theorem session_eq (target : RuntimeTarget) (fixed : NameTable) (sources : List String) :
    let s := (fresh target fixed).session sources
    (∀ other, s.1 = sources.map fun source => ((fresh target other).step source).1) ∧
    (∀ name className, s.2.annotator.classNames.get? name = some className ↔
      ∃ before i after, sources.flatMap (completed target) = before ++ i :: after ∧
        i.impl.selfType.baseName? = some name ∧ i.className = className ∧
        ∀ j ∈ after, j.impl.selfType.baseName? ≠ some name) ∧
    ∀ source, (∃ interfaces, s.2.read source = .ok interfaces ∧
        (s.2.step source).2 = s.2.record interfaces) ∨
      ∃ fault, s.2.read source = .error fault ∧ (s.2.step source).2 = s.2 := by
  intro s
  refine ⟨fun other => session_fst _ other sources, fun name className => ?_, fun source => ?_⟩
  · have hempty : (fresh target fixed).annotator.classNames.get? name = none := rfl
    rw [← published?_eq_some_iff, session_snd, get?_record, hempty, Option.or_none]
    rfl
  · rw [step]
    cases hread : s.2.read source with
    | ok interfaces => exact .inl ⟨interfaces, rfl, rfl⟩
    | error fault => exact .inr ⟨fault, rfl, rfl⟩

end Generator

/-! ### Runs over files -/

namespace FileRun

theorem generator_fail (r : FileRun) (input : String) (f : Failure) :
    (r.fail input f).generator = r.generator := by
  obtain ⟨log, hfail⟩ := r.fail_eq input f
  rw [hfail]

/-- A write shows in the files, or in that it halts the run. -/
theorem write_eq (r : FileRun) (name text : String) :
    ∃ files halt, r.write name text = { r with files := files, halt := halt } := by
  rw [write]
  split
  · exact ⟨_, r.halt, rfl⟩
  · exact ⟨r.files, _, rfl⟩

theorem writeStub_eq (r : FileRun) (roots : Roots) (input : String) (interfaces : List Interface) :
    ∃ files halt, writeStub roots input interfaces r =
      { r with files := files, halt := halt } := by
  rw [writeStub]
  split
  · exact ⟨r.files, r.halt, rfl⟩
  · exact write_eq r _ _

/-- What is written for an input changes neither the generator nor the count of failures. -/
theorem emit_eq {source expansion : String} {interfaces : List Interface}
    (hexpand : Generator.expand source interfaces = .ok expansion) (r : FileRun) (roots : Roots)
    (input : String) :
    ∃ files log halt, emit roots input source interfaces r =
      { r with files := files, log := log, halt := halt } := by
  rw [emit, hexpand]
  obtain ⟨files, halt, hwrite⟩ := write_eq (r.say s!"  {input} => {outputName roots input}")
    (outputName roots input) expansion
  dsimp only
  rw [hwrite, andThen]
  split
  · exact ⟨files, _, halt, rfl⟩
  · obtain ⟨files', halt', hstub⟩ := writeStub_eq
      { r.say s!"  {input} => {outputName roots input}" with files := files, halt := halt } roots
      input interfaces
    exact ⟨files', _, halt', hstub⟩

theorem generator_emit (r : FileRun) (roots : Roots) (input source : String)
    (interfaces : List Interface) :
    (emit roots input source interfaces r).generator = r.generator := by
  cases hexpand : Generator.expand source interfaces with
  | error f =>
    rw [emit, hexpand]
    exact generator_fail r input f
  | ok expansion =>
    obtain ⟨files, log, halt, hemit⟩ := emit_eq hexpand r roots input
    rw [hemit]

/-- A run over files takes a source as a session does. -/
theorem generator_takeSource (roots : Roots) (input source : String) (r : FileRun) :
    (takeSource roots input source r).generator = (r.generator.step source).2 := by
  rw [takeSource, Generator.step]
  cases r.generator.read source with
  | error fault =>
    cases fault with
    | diagnosed f => exact generator_fail r input f
    | codePoint => rfl
  | ok interfaces =>
    cases interfaces with
    | nil => rfl
    | cons i rest => exact generator_emit _ roots input source (i :: rest)

end FileRun
end LuaBindings
