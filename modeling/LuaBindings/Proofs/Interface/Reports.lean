import LuaBindings.Interface.Emission
import LuaBindings.Proofs.CodePoints
import LuaBindings.Stub

/-!
# What is reported of a block

All that is wrong with a block is reported together, in the order of its declarations,
and if nothing is wrong every method that is not skipped is in the interface. A name
beyond the last code point alone is not reported with the rest.
-/

set_option autoImplicit false

namespace LuaBindings

namespace PreparedMethod

/-- Whether the method takes the context by a lifetime that is not the given one. -/
def differsFrom (shared : Option String) (m : PreparedMethod) : Bool :=
  m.contextLifetime?.isSome && m.contextLifetime? != shared

theorem differsFrom_of_none {m : PreparedMethod} (h : m.contextLifetime? = none)
    (shared : Option String) : m.differsFrom shared = false := by
  simp [differsFrom, h]

theorem differsFrom_some {m : PreparedMethod} {own : String} (h : m.contextLifetime? = some own)
    (shared : String) : m.differsFrom (some shared) = !decide (own = shared) := by
  by_cases heq : own = shared <;> simp [differsFrom, h, heq]

end PreparedMethod

namespace Interface

variable (target : RuntimeTarget)

/-- The method ready to be registered, if it is classified and not skipped. -/
def registered? (m : Method) : Option PreparedMethod :=
  (PreparedMethod.ofMethod target m).toOption.filter (!·.isSkipped)

def firstLifetime? (methods : List Method) : Option String :=
  (methods.filterMap (registered? target)).findSome? PreparedMethod.contextLifetime?

/-- What is wrong with a method whose context should have the given lifetime. -/
def methodReport (shared : Option String) (m : Method) : List Diagnostic :=
  Fault.diagnostics (PreparedMethod.ofMethod target m) ++
    if (registered? target m).any (·.differsFrom shared) then
      [.atPlace m.place .contextLifetimesDiffer] else []

/-- What is wrong with a block: with its own options first, then with its methods. -/
def report (impl : ImplBlock) : List Diagnostic :=
  Fault.diagnostics (InterfaceOptions.ofArguments impl.markerArgs) ++
    impl.methods.flatMap (methodReport target (firstLifetime? target impl.methods))

variable {target}

/-! ### One method -/

theorem registered?_of_error {m : Method} {fault : Fault}
    (h : PreparedMethod.ofMethod target m = .error fault) : registered? target m = none := by
  simp [registered?, h, Except.toOption]

theorem registered?_of_ok {m : Method} {p : PreparedMethod}
    (h : PreparedMethod.ofMethod target m = .ok p) :
    registered? target m = if p.isSkipped then none else some p := by
  cases hskip : p.isSkipped <;> simp [registered?, h, Except.toOption, Option.filter, hskip]

theorem methodReport_of_error {m : Method} {f : Failure} (shared : Option String)
    (h : PreparedMethod.ofMethod target m = .error (.diagnosed f)) :
    methodReport target shared m = f.toList := by
  simp [methodReport, registered?_of_error h, h, Fault.diagnostics, Fault.failure?]

theorem methodReport_of_ok {m : Method} {p : PreparedMethod} (shared : Option String)
    (h : PreparedMethod.ofMethod target m = .ok p) :
    methodReport target shared m = if !p.isSkipped && p.differsFrom shared then
      [.atPlace m.place .contextLifetimesDiffer] else [] := by
  cases hskip : p.isSkipped <;>
    simp [methodReport, registered?_of_ok h, h, Fault.diagnostics, Fault.failure?, hskip]

theorem firstLifetime?_cons (m : Method) (methods : List Method) :
    firstLifetime? target (m :: methods) =
      ((registered? target m).bind PreparedMethod.contextLifetime?).or
        (firstLifetime? target methods) := by
  rw [firstLifetime?, List.filterMap_cons]
  cases h : registered? target m with
  | none => simp [firstLifetime?]
  | some p => cases hl : p.contextLifetime? <;> simp [firstLifetime?, hl]

end Interface

/-! ### Methods one after the other -/

open Interface

/-- What has been prepared of some methods behind the given lifetime. -/
structure PreparedMethods.Collects (target : RuntimeTarget) (shared : Option String)
    (methods : List Method) (result : PreparedMethods) : Prop where
  methods_eq : result.methods =
    (methods.filterMap (registered? target)).filter fun p => !p.differsFrom shared
  report_eq : result.failures.flatMap Failure.toList = methods.flatMap (methodReport target shared)
  lifetime_eq : result.contextLifetime = shared

namespace PreparedMethods

variable {target : RuntimeTarget} {m : Method} {methods : List Method} {result : PreparedMethods}
  {shared : Option String}

theorem Collects.failed {f : Failure} (h : Collects target shared methods result)
    (hm : PreparedMethod.ofMethod target m = .error (.diagnosed f)) :
    Collects target shared (m :: methods) { result with failures := f :: result.failures } where
  methods_eq := by simp [registered?_of_error hm, h.methods_eq]
  report_eq := by simp [methodReport_of_error _ hm, h.report_eq]
  lifetime_eq := h.lifetime_eq

theorem Collects.skipped {p : PreparedMethod} (h : Collects target shared methods result)
    (hm : PreparedMethod.ofMethod target m = .ok p) (hskip : p.isSkipped = true) :
    Collects target shared (m :: methods) result where
  methods_eq := by simp [registered?_of_ok hm, hskip, h.methods_eq]
  report_eq := by simp [methodReport_of_ok _ hm, hskip, h.report_eq]
  lifetime_eq := h.lifetime_eq

theorem Collects.kept {p : PreparedMethod} (h : Collects target shared methods result)
    (hm : PreparedMethod.ofMethod target m = .ok p) (hskip : p.isSkipped = false)
    (hsame : p.differsFrom shared = false) :
    Collects target shared (m :: methods) { result with methods := p :: result.methods } where
  methods_eq := by simp [registered?_of_ok hm, hskip, hsame, h.methods_eq]
  report_eq := by simp [methodReport_of_ok _ hm, hsame, h.report_eq]
  lifetime_eq := h.lifetime_eq

theorem Collects.differing {p : PreparedMethod} (h : Collects target shared methods result)
    (hm : PreparedMethod.ofMethod target m = .ok p) (hskip : p.isSkipped = false)
    (hdiffers : p.differsFrom shared = true) :
    Collects target shared (m :: methods)
      { result with
        failures := Failure.atPlace m.place .contextLifetimesDiffer :: result.failures } where
  methods_eq := by simp [registered?_of_ok hm, hskip, hdiffers, h.methods_eq]
  report_eq := by
    simp [methodReport_of_ok _ hm, hskip, hdiffers, h.report_eq, Failure.atPlace, Failure.single,
      Failure.toList]
  lifetime_eq := h.lifetime_eq

/-- The lifetime that holds for the methods is the one in front of them, or the first of their
own. -/
theorem ofMethods_collects (lifetime : Option String) (h : ∀ m ∈ methods, ¬m.NamesBeyond) :
    ∃ result, ofMethods target lifetime methods = .ok result ∧
      Collects target (lifetime.or (firstLifetime? target methods)) methods result := by
  induction methods generalizing lifetime with
  | nil => exact ⟨_, rfl, rfl, rfl, by simp [firstLifetime?]⟩
  | cons m methods ih =>
    obtain ⟨hm, hmethods⟩ := List.forall_mem_cons.1 h
    rw [ofMethods, firstLifetime?_cons]
    cases hprepared : PreparedMethod.ofMethod target m with
    | error fault =>
      rw [registered?_of_error hprepared, Option.bind_none, Option.none_or]
      cases fault with
      | codePoint =>
        exact absurd ((PreparedMethod.ofMethod_eq_codePoint_iff target m).1 hprepared) hm
      | diagnosed f =>
        obtain ⟨result, hresult, hcollects⟩ := ih lifetime hmethods
        refine ⟨_, ?_, hcollects.failed hprepared⟩
        simp only [Fault.split, bind, Except.bind, hresult]
        rfl
    | ok p =>
      simp only [Fault.split, bind, Except.bind]
      rw [registered?_of_ok hprepared]
      cases hskip : p.isSkipped with
      | true =>
        obtain ⟨result, hresult, hcollects⟩ := ih lifetime hmethods
        exact ⟨result, hresult, hcollects.skipped hprepared hskip⟩
      | false =>
        cases hown : p.contextLifetime? with
        | none =>
          obtain ⟨result, hresult, hcollects⟩ := ih lifetime hmethods
          have hsame := PreparedMethod.differsFrom_of_none hown
          refine ⟨{ result with methods := p :: result.methods }, ?_, ?_⟩
          · simp [hresult, pure, Except.pure]
          · simpa [hown] using hcollects.kept hprepared hskip (hsame _)
        | some own =>
          cases lifetime with
          | none =>
            -- The first context sets the lifetime for the methods behind it.
            obtain ⟨result, hresult, hcollects⟩ := ih (some own) hmethods
            have hsame : p.differsFrom (some own) = false := by
              simp [PreparedMethod.differsFrom_some hown]
            refine ⟨{ result with methods := p :: result.methods }, ?_, ?_⟩
            · simp [hresult, pure, Except.pure]
            · simpa [hown] using hcollects.kept hprepared hskip hsame
          | some shared =>
            obtain ⟨result, hresult, hcollects⟩ := ih (some shared) hmethods
            by_cases heq : own = shared
            · have hsame : p.differsFrom (some shared) = false := by
                simp [PreparedMethod.differsFrom_some hown, heq]
              refine ⟨{ result with methods := p :: result.methods }, ?_, ?_⟩
              · simp [hresult, heq, pure, Except.pure]
              · simpa using hcollects.kept hprepared hskip hsame
            · have hdiffers : p.differsFrom (some shared) = true := by
                simp [PreparedMethod.differsFrom_some hown, heq]
              refine ⟨_, ?_, by simpa using hcollects.differing hprepared hskip hdiffers⟩
              simp [hresult, heq, pure, Except.pure]

end PreparedMethods

/-! ### The interface -/

namespace Interface

variable {target : RuntimeTarget} {impl : ImplBlock}

/-- What the interface of a block is made of if nothing is wrong with the block. -/
structure Gathers (target : RuntimeTarget) (impl : ImplBlock) (i : Interface) : Prop where
  impl_eq : i.impl = impl
  options_eq : InterfaceOptions.ofArguments impl.markerArgs = .ok i.options
  methods_eq : i.methods = impl.methods.filterMap (registered? target)
  lifetime_eq : i.contextLifetime = firstLifetime? target impl.methods
  target_eq : i.target = target

theorem differsFrom_of_report {methods : List Method} {shared : Option String}
    (h : methods.flatMap (methodReport target shared) = []) :
    ∀ p ∈ methods.filterMap (registered? target), p.differsFrom shared = false := by
  intro p hp
  obtain ⟨m, hm, hregistered⟩ := List.mem_filterMap.1 hp
  have hreport := List.flatMap_eq_nil_iff.1 h m hm
  rw [methodReport, hregistered] at hreport
  cases hdiffers : p.differsFrom shared with
  | false => rfl
  | true => simp [hdiffers] at hreport

theorem refuse_eq_ok_iff {α : Type} {failures : List Failure} {a b : α} :
    Fault.refuse failures a = .ok b ↔ failures.flatMap Failure.toList = [] ∧ a = b := by
  cases failures with
  | nil => simp [Fault.refuse, Failure.refuse, Failure.combine, Failure.ofList?, Fault.ofExcept]
  | cons f failures =>
    refine iff_of_false (by rintro ⟨⟩) ?_
    rintro ⟨h, -⟩
    cases h

theorem refuse_eq_error_iff {α : Type} {failures : List Failure} {a : α} {f : Failure} :
    Fault.refuse failures a = .error (.diagnosed f) ↔
      f.toList = failures.flatMap Failure.toList := by
  cases failures with
  | nil =>
    refine iff_of_false (by rintro ⟨⟩) ?_
    rintro ⟨⟩
  | cons g failures =>
    have hrefuse : Fault.refuse (g :: failures) a =
        .error (.diagnosed ⟨g.first, g.others ++ failures.flatMap Failure.toList⟩) := rfl
    rw [hrefuse]
    obtain ⟨first, others⟩ := f
    simp [Failure.toList, eq_comm]

/-- Without a name beyond the last code point the block is refused with its report. -/
theorem exists_ofImpl_eq (h : ¬impl.NamesBeyond) :
    ∃ failures i, ofImpl target impl = Fault.refuse failures i ∧
      failures.flatMap Failure.toList = report target impl ∧
      (report target impl = [] → i.Gathers target impl) := by
  have hmethods : ∀ m ∈ impl.methods, ¬m.NamesBeyond :=
    fun m hm hbeyond => h (.inr ⟨m, hm, hbeyond⟩)
  obtain ⟨prepared, hprepared, hcollects⟩ :=
    @PreparedMethods.ofMethods_collects target impl.methods none hmethods
  rw [Option.none_or] at hcollects
  have hreport : report target impl =
      Fault.diagnostics (InterfaceOptions.ofArguments impl.markerArgs) ++
        prepared.failures.flatMap Failure.toList := by
    rw [report, hcollects.report_eq]
  have hgathers (options : InterfaceOptions)
      (hoptions : InterfaceOptions.ofArguments impl.markerArgs = .ok options)
      (hnil : report target impl = []) :
      Gathers target impl ⟨impl, options, prepared.methods, prepared.contextLifetime, target⟩ := by
    have hsame := differsFrom_of_report (List.append_eq_nil_iff.1 hnil).2
    refine ⟨rfl, hoptions, ?_, hcollects.lifetime_eq, rfl⟩
    change prepared.methods = _
    rw [hcollects.methods_eq, List.filter_eq_self]
    exact fun p hp => by simp [hsame p hp]
  cases hoptions : InterfaceOptions.ofArguments impl.markerArgs with
  | ok options =>
    refine ⟨prepared.failures, _, ?_, ?_, hgathers options hoptions⟩
    · simp only [ofImpl, hoptions, Fault.split, bind, Except.bind, hprepared]
    · simp [hreport, hoptions, Fault.diagnostics, Fault.failure?]
  | error fault =>
    cases fault with
    | codePoint =>
      refine absurd ((ofImpl_eq_codePoint_iff target impl).1 ?_) h
      simp only [ofImpl, hoptions, Fault.split, bind, Except.bind]
    | diagnosed f =>
      have hreport : (f :: prepared.failures).flatMap Failure.toList = report target impl := by
        simp [hreport, hoptions, Fault.diagnostics, Fault.failure?]
      refine ⟨f :: prepared.failures,
        ⟨impl, .default, prepared.methods, prepared.contextLifetime, target⟩, ?_, hreport, ?_⟩
      · simp only [ofImpl, hoptions, Fault.split, bind, Except.bind, hprepared]
      · rw [← hreport]
        rintro ⟨⟩

theorem Gathers.unique {i i' : Interface} (h : i.Gathers target impl)
    (h' : i'.Gathers target impl) : i = i' := by
  cases i
  cases i'
  congr 1
  · exact h.impl_eq.trans h'.impl_eq.symm
  · exact Except.ok.inj (h.options_eq.symm.trans h'.options_eq)
  · exact h.methods_eq.trans h'.methods_eq.symm
  · exact h.lifetime_eq.trans h'.lifetime_eq.symm
  · exact h.target_eq.trans h'.target_eq.symm

theorem ofImpl_eq_ok_iff {i : Interface} :
    ofImpl target impl = .ok i ↔
      ¬impl.NamesBeyond ∧ report target impl = [] ∧ i.Gathers target impl := by
  by_cases hbeyond : impl.NamesBeyond
  · rw [(ofImpl_eq_codePoint_iff target impl).2 hbeyond]
    simp [hbeyond]
  · obtain ⟨failures, i', hrefuse, hreport, hgathers⟩ := @exists_ofImpl_eq target impl hbeyond
    rw [hrefuse, refuse_eq_ok_iff, hreport]
    constructor
    · rintro ⟨hnil, rfl⟩
      exact ⟨hbeyond, hnil, hgathers hnil⟩
    · rintro ⟨-, hnil, hi⟩
      exact ⟨hnil, (hgathers hnil).unique hi⟩

theorem ofImpl_eq_error_iff {f : Failure} :
    ofImpl target impl = .error (.diagnosed f) ↔
      ¬impl.NamesBeyond ∧ f.toList = report target impl := by
  by_cases hbeyond : impl.NamesBeyond
  · rw [(ofImpl_eq_codePoint_iff target impl).2 hbeyond]
    simp [hbeyond]
  · obtain ⟨failures, i, hrefuse, hreport, -⟩ := @exists_ofImpl_eq target impl hbeyond
    rw [hrefuse, refuse_eq_error_iff, hreport, and_iff_right hbeyond]

/-- The contexts of an interface have its lifetime. -/
theorem Gathers.lifetimes {i : Interface} (h : i.Gathers target impl)
    (hreport : report target impl = []) :
    (i.contextLifetime = none ↔ ∀ m ∈ i.methods, m.contextLifetime? = none) ∧
      ∀ m ∈ i.methods, m.contextLifetime? = none ∨ m.contextLifetime? = i.contextLifetime := by
  have hsame := differsFrom_of_report (List.append_eq_nil_iff.1 hreport).2
  rw [h.methods_eq, h.lifetime_eq]
  refine ⟨List.findSome?_eq_none_iff, fun m hm => ?_⟩
  have hm := hsame m hm
  cases hown : m.contextLifetime? with
  | none => exact .inl rfl
  | some own => exact .inr (by simpa [PreparedMethod.differsFrom, hown] using hm)

/-! ### Skipped declarations -/

/-- What is written of an interface: the impl that registers its methods, the one that
publishes them, and the lines of the stub. -/
def texts (a : Annotator) (i : Interface) :
    String × Except Failure (Option String) × List String :=
  (i.userdataImpl, i.publication?, Stub.interfaceLines a i)

section

variable {before after : List Method} {m : Method} {p : PreparedMethod}

theorem firstLifetime?_of_skipped (h : registered? target m = none) :
    firstLifetime? target (before ++ m :: after) = firstLifetime? target (before ++ after) := by
  simp [firstLifetime?, h]

theorem report_of_skipped (hm : PreparedMethod.ofMethod target m = .ok p)
    (hskip : p.isSkipped = true) (himpl : impl.methods = before ++ m :: after) :
    report target { impl with methods := before ++ after } = report target impl := by
  have hregistered : registered? target m = none := by simp [registered?_of_ok hm, hskip]
  have hnil (shared : Option String) : methodReport target shared m = [] := by
    simp [methodReport_of_ok shared hm, hskip]
  simp [report, himpl, firstLifetime?_of_skipped hregistered, hnil]

theorem namesBeyond_of_skipped (hm : PreparedMethod.ofMethod target m = .ok p)
    (himpl : impl.methods = before ++ m :: after) :
    ImplBlock.NamesBeyond { impl with methods := before ++ after } ↔ impl.NamesBeyond := by
  have hno : ¬m.NamesBeyond := by
    rw [← PreparedMethod.ofMethod_eq_codePoint_iff target, hm]
    rintro ⟨⟩
  simp [ImplBlock.NamesBeyond, himpl, or_and_right, exists_or, hno]

theorem Gathers.of_skipped {i : Interface} (hm : PreparedMethod.ofMethod target m = .ok p)
    (hskip : p.isSkipped = true) (himpl : impl.methods = before ++ m :: after)
    (h : i.Gathers target impl) :
    Gathers target { impl with methods := before ++ after }
      { i with impl := { impl with methods := before ++ after } } := by
  have hregistered : registered? target m = none := by simp [registered?_of_ok hm, hskip]
  refine ⟨rfl, h.options_eq, ?_, ?_, h.target_eq⟩
  · simp [h.methods_eq, himpl, hregistered]
  · simp [h.lifetime_eq, himpl, firstLifetime?_of_skipped hregistered]

/-- Nothing that is written or reported shows a declaration that is skipped. -/
theorem texts_of_skipped (a : Annotator) (hm : PreparedMethod.ofMethod target m = .ok p)
    (hskip : p.isSkipped = true) (himpl : impl.methods = before ++ m :: after) :
    (ofImpl target { impl with methods := before ++ after }).map (texts a) =
      (ofImpl target impl).map (texts a) := by
  have hbeyond := namesBeyond_of_skipped hm himpl
  have hreport := report_of_skipped hm hskip himpl
  cases hresult : ofImpl target impl with
  | error fault =>
    cases fault with
    | codePoint =>
      rw [ofImpl_eq_codePoint_iff, ← hbeyond, ← ofImpl_eq_codePoint_iff target] at hresult
      rw [hresult]
    | diagnosed f =>
      rw [ofImpl_eq_error_iff, ← hbeyond, ← hreport, ← ofImpl_eq_error_iff] at hresult
      rw [hresult]
  | ok i =>
    obtain ⟨hno, hnil, hgathers⟩ := ofImpl_eq_ok_iff.1 hresult
    have hother := ofImpl_eq_ok_iff.2
      ⟨mt hbeyond.1 hno, hreport.trans hnil, hgathers.of_skipped hm hskip himpl⟩
    obtain ⟨impl', options, methods, lifetime, target'⟩ := i
    cases hgathers.impl_eq
    rw [hother]
    rfl

end

/-- A block is refused with all that is wrong with it, in the order of its declarations, or it
has an interface of the methods that are not skipped. A name beyond the last code point ends
it without a report. -/
theorem ofImpl_reports (target : RuntimeTarget) (impl : ImplBlock) :
    (ofImpl target impl = .error .codePoint ↔ impl.NamesBeyond) ∧
    (∀ f, ofImpl target impl = .error (.diagnosed f) ↔
      ¬impl.NamesBeyond ∧ f.toList = report target impl) ∧
    (∀ i, ofImpl target impl = .ok i ↔
      ¬impl.NamesBeyond ∧ report target impl = [] ∧ i.Gathers target impl) ∧
    (∀ i, ofImpl target impl = .ok i →
      (i.contextLifetime = none ↔ ∀ m ∈ i.methods, m.contextLifetime? = none) ∧
        ∀ m ∈ i.methods, m.contextLifetime? = none ∨ m.contextLifetime? = i.contextLifetime) ∧
    ∀ before m after p a, impl.methods = before ++ m :: after →
      PreparedMethod.ofMethod target m = .ok p → p.isSkipped = true →
      (ofImpl target { impl with methods := before ++ after }).map (texts a) =
        (ofImpl target impl).map (texts a) := by
  refine ⟨ofImpl_eq_codePoint_iff target impl, fun f => ofImpl_eq_error_iff,
    fun i => ofImpl_eq_ok_iff, fun i hi => ?_, fun before m after p a himpl hm hskip =>
      texts_of_skipped a hm hskip himpl⟩
  obtain ⟨-, hnil, hgathers⟩ := ofImpl_eq_ok_iff.1 hi
  exact hgathers.lifetimes hnil

/-- The option of the first method names a number beyond the last code point. What is wrong
with the second method is not reported. -/
theorem ofImpl_drops_report :
    let source := "#[lua_methods]\nimpl T \x7b\n    #[lua(rename = \"\\u\x7b110000\x7d\")]\n" ++
      "    fn f() \x7b\x7d\n    #[lua(bogus)]\n    fn g() \x7b\x7d\n\x7d\n"
    ∃ impl, ImplBlock.ofSource source ImplBlock.defaultMarker = .ok [impl] ∧
      report .default impl = [⟨.unknownOption "bogus", some 5, some 11⟩] ∧
      ∀ f, ofImpl .default impl ≠ .error (.diagnosed f) := by
  intro source
  have hread : (ImplBlock.ofSource source ImplBlock.defaultMarker).toOption.map (fun impls =>
      impls.map fun impl => (report .default impl, Fault.failure? (ofImpl .default impl))) =
      some [([⟨.unknownOption "bogus", some 5, some 11⟩], none)] := by
    decide +kernel
  obtain ⟨impls, himpls, hone⟩ := Option.map_eq_some_iff.1 hread
  obtain ⟨impl, rfl, himpl⟩ := List.map_eq_singleton_iff.1 hone
  obtain ⟨hreport, hfailure⟩ := Prod.mk.inj himpl
  refine ⟨impl, eq_ok_of_toOption himpls, hreport, fun f hf => ?_⟩
  rw [hf] at hfailure
  cases hfailure

end Interface
end LuaBindings
