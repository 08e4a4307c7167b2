import LuaBindings.Generator
import LuaBindings.Proofs.Places.Options
import LuaBindings.Proofs.Splicing

/-!
# Where interfaces fail

Methods are classified, interfaces are built and written out from what is read of a text, and
whatever fails then is placed at one of the tokens of the text.
-/

set_option autoImplicit false

namespace LuaBindings

variable {tokens : List Token}

/-! ### Parameters -/

namespace Parameter

variable {p : Parameter}

theorem Anchored.fault {α : Type} {Q : α → Prop} {cause : Cause} (h : p.Anchored tokens)
    (hcause : cause.Quotes tokens) : Meets (Fault.Concerns tokens) Q (p.fault cause) :=
  Fault.meets_atPlace h.placed hcause

theorem Anchored.isTaggedContext (h : p.Anchored tokens) :
    Meets (Fault.Concerns tokens) (fun _ => True) p.isTaggedContext :=
  (ParameterOptions.meets_ofAttributes h.attributes).bind fun _ _ => trivial

theorem Anchored.requireIdent (h : p.Anchored tokens) :
    Meets (Fault.Concerns tokens) (fun _ => True) p.requireIdent := by
  rw [Parameter.requireIdent]
  split
  · exact trivial
  · exact h.fault trivial

theorem Anchored.context? (h : p.Anchored tokens) (target : RuntimeTarget) :
    Meets (Fault.Concerns tokens) (fun _ => True) (p.context? target) := by
  refine h.isTaggedContext.bind fun isTagged _ => ?_
  split
  · split
    · exact h.fault trivial
    · exact trivial
  · split
    · exact h.requireIdent.bind fun _ _ => trivial
    · exact trivial

theorem Anchored.argument (h : p.Anchored tokens) :
    Meets (Fault.Concerns tokens) (fun _ => True) p.argument :=
  h.requireIdent.bind fun _ _ => trivial

theorem Anchored.requireNoContext (h : p.Anchored tokens) :
    Meets (Fault.Concerns tokens) (fun _ => True) p.requireNoContext := by
  refine h.isTaggedContext.bind fun isTagged _ => ?_
  split
  · exact h.fault trivial
  · exact trivial

end Parameter

/-! ### Methods -/

theorem Signature.meets_splitContext (target : RuntimeTarget) {params : List Parameter}
    (h : ∀ p ∈ params, p.Anchored tokens) :
    Meets (Fault.Concerns tokens) (fun split => ∀ p ∈ split.2, p.Anchored tokens)
      (splitContext target params) := by
  cases params with
  | nil => exact List.forall_mem_nil _
  | cons first rest =>
    obtain ⟨hfirst, hrest⟩ := List.forall_mem_cons.1 h
    refine (hfirst.context? target).bind fun context _ => ?_
    cases context with
    | some context => exact hrest
    | none => exact h

theorem Signature.meets_classify (target : RuntimeTarget) (options : ItemOptions) {m : Method}
    (h : m.Anchored tokens) :
    Meets (Fault.Concerns tokens) (fun _ => True) (classify target options m) := by
  have hplace (cause : Cause) (hcause : cause.Quotes tokens) :
      Meets (Fault.Concerns tokens) (fun _ : Unit => True) (Fault.atPlace m.place cause) :=
    Fault.meets_atPlace h.placed hcause
  have hasync := hplace .mutableAsyncMeta trivial
  have hlifetime := hplace .undeclaredLifetime trivial
  refine (meets_splitContext target h.params).bind fun ⟨context, params⟩ hparams => ?_
  refine (meets_forM fun p hp => (hparams p hp).requireNoContext).bind fun _ _ => ?_
  have hargs := meets_mapM_any fun p hp => (hparams p hp).argument
  dsimp only
  split
  · refine hasync.bind fun _ _ => ?_
    split
    · exact hlifetime.bind fun _ _ => hargs.bind fun _ _ => trivial
    · exact hargs.bind fun _ _ => trivial
  · split
    · exact hlifetime.bind fun _ _ => hargs.bind fun _ _ => trivial
    · exact hargs.bind fun _ _ => trivial

theorem PreparedMethod.meets_ofMethod (target : RuntimeTarget) {m : Method}
    (h : m.Anchored tokens) :
    Meets (Fault.Concerns tokens) (fun _ => True) (ofMethod target m) := by
  have hsignature : Meets (Fault.Concerns tokens) (fun _ => True) (Signature.ofMethod target m) :=
    (ItemOptions.meets_ofAttributes h.attributes).bind fun options _ =>
      Signature.meets_classify target options h
  exact hsignature.bind fun _ _ => trivial

namespace Fault

variable {α β : Type} {Q : α → Prop}

theorem meets_split {x : Except Fault α} (h : Meets (Concerns tokens) Q x) :
    Meets (Concerns tokens) (Meets (Failure.Concerns tokens) Q) (split x) := by
  cases x with
  | ok a => exact h
  | error fault =>
    cases fault with
    | diagnosed f => exact h
    | codePoint => exact trivial

theorem meets_collect {f : α → Except Fault β} {list : List α}
    (h : ∀ a ∈ list, Meets (Concerns tokens) (fun _ => True) (f a)) :
    Meets (Concerns tokens) (fun collected => ∀ f ∈ collected.2, f.Concerns tokens)
      (collect f list) := by
  induction list with
  | nil => exact List.forall_mem_nil _
  | cons a list ih =>
    obtain ⟨hfirst, hrest⟩ := List.forall_mem_cons.1 h
    refine (meets_split hfirst).bind fun result hresult => ?_
    refine (ih hrest).bind fun ⟨values, failures⟩ hfailures => ?_
    cases result with
    | ok b => exact hfailures
    | error failure => exact List.forall_mem_cons.2 ⟨hresult, hfailures⟩

end Fault

theorem PreparedMethods.meets_ofMethods (target : RuntimeTarget) (lifetime : Option String)
    {methods : List Method} (h : ∀ m ∈ methods, m.Anchored tokens) :
    Meets (Fault.Concerns tokens) (fun prepared => ∀ f ∈ prepared.failures, f.Concerns tokens)
      (ofMethods target lifetime methods) := by
  induction methods generalizing lifetime with
  | nil => exact List.forall_mem_nil _
  | cons m rest ih =>
    obtain ⟨hfirst, hrest⟩ := List.forall_mem_cons.1 h
    refine (Fault.meets_split (PreparedMethod.meets_ofMethod target hfirst)).bind
      fun result hresult => ?_
    cases result with
    | error f =>
      exact (ih lifetime hrest).bind fun more hmore => List.forall_mem_cons.2 ⟨hresult, hmore⟩
    | ok prepared =>
      dsimp only
      split
      · exact ih lifetime hrest
      · split
        · refine (ih _ hrest).bind fun more hmore => ?_
          split
          · exact hmore
          · exact List.forall_mem_cons.2 ⟨Failure.concerns_single hfirst.placed trivial, hmore⟩
        · exact (ih _ hrest).bind fun more hmore => hmore

/-! ### Interfaces -/

theorem ImplBlock.Anchored.concerned_ofImpl {impl : ImplBlock} (h : impl.Anchored tokens)
    (target : RuntimeTarget) :
    Meets (Fault.Concerns tokens) (fun i => i.impl = impl) (Interface.ofImpl target impl) := by
  refine (Fault.meets_split (InterfaceOptions.meets_ofArguments h.markerArgs)).bind
    fun options hoptions => ?_
  refine (PreparedMethods.meets_ofMethods target none h.methods).bind fun prepared hprepared => ?_
  cases options with
  | ok options => exact Fault.meets_ofExcept (meets_refuse hprepared rfl)
  | error f =>
    exact Fault.meets_ofExcept (meets_refuse (List.forall_mem_cons.2 ⟨hoptions, hprepared⟩) rfl)

theorem ImplBlock.Anchored.ofImpl {impl : ImplBlock} (h : impl.Anchored tokens)
    (target : RuntimeTarget) :
    Meets (Fault.PointsInto tokens) (fun i => i.impl = impl) (Interface.ofImpl target impl) :=
  (h.concerned_ofImpl target).weaken fun _ => Fault.Concerns.pointsInto

theorem Generator.concerned_interfaces (target : RuntimeTarget) {impls : List ImplBlock}
    (h : ∀ impl ∈ impls, impl.Anchored tokens) :
    Meets (Fault.Concerns tokens) (fun _ => True) (interfaces target impls) := by
  refine (Fault.meets_collect fun impl himpl => ((h impl himpl).concerned_ofImpl target).any).bind
    fun ⟨interfaces, failures⟩ hfailures => ?_
  exact Fault.meets_ofExcept (meets_refuse hfailures trivial)

theorem Generator.meets_interfaces (target : RuntimeTarget) {impls : List ImplBlock}
    (h : ∀ impl ∈ impls, impl.Anchored tokens) :
    Meets (Fault.PointsInto tokens) (fun _ => True) (interfaces target impls) :=
  (concerned_interfaces target h).weaken fun _ => Fault.Concerns.pointsInto

/-! ### Expansion -/

theorem Interface.meets_expansion {i : Interface} (h : i.impl.Anchored tokens) :
    Meets (Failure.Concerns tokens) (fun _ => True) i.expansion := by
  have hpublication : Meets (Failure.Concerns tokens) (fun _ => True) i.publication? := by
    rw [publication?]
    split
    · exact trivial
    · split
      · exact trivial
      · exact Failure.concerns_single h.selfType trivial
  refine hpublication.bind fun publication _ => ?_
  cases publication with
  | some publication => exact trivial
  | none => exact trivial

namespace Generator

theorem concerns_spliceFrom (text : List Char) (position : Nat) {interfaces : List Interface}
    (h : ∀ i ∈ interfaces, i.impl.Anchored tokens) :
    ∀ f ∈ (spliceFrom text position interfaces).2, f.Concerns tokens := by
  induction interfaces generalizing position with
  | nil => exact List.forall_mem_nil _
  | cons i rest ih =>
    obtain ⟨hfirst, hrest⟩ := List.forall_mem_cons.1 h
    have hexpansion := Interface.meets_expansion hfirst
    rw [spliceFrom]
    cases hresult : i.expansion with
    | ok text => exact ih _ hrest
    | error f =>
      rw [hresult] at hexpansion
      exact List.forall_mem_cons.2 ⟨hexpansion, ih _ hrest⟩

theorem concerned_expand (source : String) {interfaces : List Interface}
    (h : ∀ i ∈ interfaces, i.impl.Anchored tokens) :
    Meets (Failure.Concerns tokens) (fun _ => True) (expand source interfaces) := by
  refine meets_refuse (concerns_spliceFrom _ _ fun i hi => h i ?_) trivial
  exact List.mem_mergeSort.1 hi

theorem meets_expand (source : String) {interfaces : List Interface}
    (h : ∀ i ∈ interfaces, i.impl.Anchored tokens) :
    Meets (Failure.PointsInto tokens) (fun _ => True) (expand source interfaces) :=
  (concerned_expand source h).weaken fun _ => Failure.Concerns.pointsInto

end Generator
end LuaBindings
