import LuaBindings.Proofs.Options.Settings
import LuaBindings.Signature.Classification

/-!
# Which methods are classified

A method is classified just if its options, its parameters and its context are in order.
The signature then accounts for every parameter of the declaration, in the order of the
declaration.
-/

set_option autoImplicit false

namespace LuaBindings

namespace Parameter

open ParameterOptions (Accepted Tagged)

variable {target : RuntimeTarget} {p : Parameter}

def Binds (p : Parameter) (name : String) (isMut : Bool) : Prop :=
  ∃ (modes : List Token) (t : Token), p.pattern = (modes ++ [t]).map TokenTree.token ∧
    (∀ mode ∈ modes, mode.text ∈ bindingModes) ∧ t.kind = .ident ∧
    t.text ∉ ["mut", "ref", "_"] ∧ t.text = name ∧
    (isMut = true ↔ ∃ mode ∈ modes, mode.text = "mut")

/-- The parameter refers with a lifetime, and is tagged as the context or refers to a type of
the context. -/
def IsContext (target : RuntimeTarget) (p : Parameter) (lifetime : String) : Prop :=
  ∃ trees isMut elem, p.type = .reference trees (some lifetime) isMut elem ∧
    (Tagged p.attributes ∨ ∃ path, elem.pathName? = some path ∧ path ∈ target.contextTypes)

/-- The argument has the name, the mutability and the type of the parameter. -/
structure Gives (p : Parameter) (a : Argument) : Prop where
  binds : p.Binds a.name a.isMutBinding
  handle (isMut : Bool) (pointee : RustType) : a.passing = .handle isMut pointee ↔
    ∃ trees lifetime, p.type = .reference trees lifetime isMut pointee
  value (type : RustType) : a.passing = .value type ↔
    p.type = type ∧ ∀ trees lifetime isMut elem, type ≠ .reference trees lifetime isMut elem

/-! ### Patterns -/

theorem identOf_eq_some_iff {pattern : List TokenTree} {name : String} :
    identOf pattern = some name ↔
      ∃ (modes : List Token) (t : Token), pattern = (modes ++ [t]).map TokenTree.token ∧
        (∀ mode ∈ modes, mode.text ∈ bindingModes) ∧ t.kind = .ident ∧
        t.text ∉ ["mut", "ref", "_"] ∧ t.text = name := by
  induction pattern with
  | nil => simp [identOf]
  | cons tree rest ih =>
    cases rest with
    | nil =>
      rw [identOf]
      constructor
      · intro h
        obtain ⟨t, ht, rfl⟩ := Option.map_eq_some_iff.1 h
        obtain ⟨rfl, hident⟩ := TokenTree.token?_eq_some ht
        exact ⟨[], t, rfl, by simp, by simpa [and_assoc] using hident⟩
      · rintro ⟨modes, t, hpattern, -, hkind, htext, rfl⟩
        cases modes with
        | nil =>
          cases hpattern
          rw [TokenTree.token?_token _ _ (by simpa [hkind] using htext)]
          rfl
        | cons mode modes => simp at hpattern
    | cons next rest =>
      have hunfold : identOf (tree :: next :: rest) =
          if tree.isToken (bindingModes.contains ·.text) then identOf (next :: rest)
          else none := rfl
      rw [hunfold]
      constructor
      · intro h
        split at h
        · rename_i htoken
          obtain ⟨modes, t, hpattern, hmodes, ht⟩ := ih.1 h
          obtain ⟨mode, htoken⟩ := Option.isSome_iff_exists.1 htoken
          obtain ⟨htree, hmode⟩ := TokenTree.token?_eq_some htoken
          subst htree
          refine ⟨mode :: modes, t, by simp [hpattern], ?_, ht⟩
          exact List.forall_mem_cons.2 ⟨by simpa using hmode, hmodes⟩
        · cases h
      · rintro ⟨modes, t, hpattern, hmodes, ht⟩
        cases modes with
        | nil => simp at hpattern
        | cons mode modes =>
          obtain ⟨hmode, hmodes⟩ := List.forall_mem_cons.1 hmodes
          obtain ⟨htree, hrest⟩ := List.cons.inj hpattern
          subst htree
          have htoken : (TokenTree.token mode).isToken (bindingModes.contains ·.text) = true := by
            rw [TokenTree.isToken, TokenTree.token?_token _ _ (by simpa using hmode)]
            rfl
          rw [if_pos htoken]
          exact ih.2 ⟨modes, t, hrest, hmodes, ht⟩

theorem isMutBinding_iff {modes : List Token} {t : Token}
    (h : p.pattern = (modes ++ [t]).map TokenTree.token) :
    p.isMutBinding = true ↔ ∃ mode ∈ modes, mode.text = "mut" := by
  rw [isMutBinding, h]
  simp [TokenTree.isToken, TokenTree.token?]

theorem binds_iff {name : String} {isMut : Bool} :
    p.Binds name isMut ↔ p.ident? = some name ∧ p.isMutBinding = isMut := by
  rw [ident?, identOf_eq_some_iff]
  constructor
  · rintro ⟨modes, t, hpattern, hmodes, hkind, htext, hname, hmut⟩
    exact ⟨⟨modes, t, hpattern, hmodes, hkind, htext, hname⟩,
      Bool.eq_iff_iff.2 ((isMutBinding_iff hpattern).trans hmut.symm)⟩
  · rintro ⟨⟨modes, t, hpattern, hmodes, hkind, htext, hname⟩, rfl⟩
    exact ⟨modes, t, hpattern, hmodes, hkind, htext, hname, isMutBinding_iff hpattern⟩

/-! ### Parameters -/

theorem isTaggedContext_eq_ok_iff {isTagged : Bool} :
    p.isTaggedContext = .ok isTagged ↔
      Accepted p.attributes ∧ (isTagged = true ↔ Tagged p.attributes) := by
  rw [isTaggedContext, bind_eq_ok_iff]
  simp only [ParameterOptions.ofAttributes_eq_ok_iff, pure_eq_ok_iff]
  constructor
  · rintro ⟨options, h, rfl⟩
    exact h
  · intro h
    exact ⟨⟨isTagged⟩, h, rfl⟩

theorem requireNoContext_eq_ok_iff :
    p.requireNoContext = .ok () ↔ Accepted p.attributes ∧ ¬Tagged p.attributes := by
  rw [requireNoContext, bind_eq_ok_iff]
  simp only [isTaggedContext_eq_ok_iff]
  constructor
  · rintro ⟨isTagged, ⟨haccepted, htagged⟩, h⟩
    cases isTagged with
    | true => exact absurd h (atPlace_ne_ok _ _ _)
    | false => exact ⟨haccepted, by simpa using htagged⟩
  · rintro ⟨haccepted, htagged⟩
    exact ⟨false, ⟨haccepted, by simpa using htagged⟩, rfl⟩

theorem requireIdent_eq_ok_iff {name : String} :
    p.requireIdent = .ok name ↔ p.ident? = some name := by
  rw [requireIdent]
  cases p.ident? with
  | none => exact iff_of_false (atPlace_ne_ok _ _ _) (by simp)
  | some ident => simp

/-- References are passed as handles, and all else by value. -/
theorem passing_eq_ofType_iff {passing : Passing} {type : RustType} :
    passing = Passing.ofType type ↔
      (∀ isMut pointee, passing = .handle isMut pointee ↔
        ∃ trees lifetime, type = .reference trees lifetime isMut pointee) ∧
      ∀ t, passing = .value t ↔
        type = t ∧ ∀ trees lifetime isMut elem, t ≠ .reference trees lifetime isMut elem := by
  have hother (hne : ∀ trees lifetime isMut elem, type ≠ .reference trees lifetime isMut elem)
      (hof : Passing.ofType type = .value type) :
      passing = Passing.ofType type ↔
        (∀ isMut pointee, passing = .handle isMut pointee ↔
          ∃ trees lifetime, type = .reference trees lifetime isMut pointee) ∧
        ∀ t, passing = .value t ↔
          type = t ∧ ∀ trees lifetime isMut elem, t ≠ .reference trees lifetime isMut elem := by
    rw [hof]
    constructor
    · rintro rfl
      refine ⟨fun isMut pointee => iff_of_false (by rintro ⟨⟩) ?_, fun t => ⟨?_, ?_⟩⟩
      · rintro ⟨trees, lifetime, htype⟩
        exact hne _ _ _ _ htype
      · rintro ⟨⟩
        exact ⟨rfl, hne⟩
      · rintro ⟨rfl, -⟩
        rfl
    · rintro ⟨-, hvalue⟩
      exact (hvalue type).2 ⟨rfl, hne⟩
  cases type with
  | reference trees lifetime isMut elem =>
    constructor
    · rintro rfl
      refine ⟨fun isMut' pointee => ⟨?_, ?_⟩, fun t => iff_of_false (by rintro ⟨⟩) ?_⟩
      · rintro ⟨⟩
        exact ⟨trees, lifetime, rfl⟩
      · rintro ⟨_, _, htype⟩
        cases htype
        rfl
      · rintro ⟨rfl, hne⟩
        exact hne _ _ _ _ rfl
    · rintro ⟨hhandle, -⟩
      exact (hhandle isMut elem).2 ⟨trees, lifetime, rfl⟩
  | path => exact hother (by rintro _ _ _ _ ⟨⟩) rfl
  | tuple => exact hother (by rintro _ _ _ _ ⟨⟩) rfl
  | other => exact hother (by rintro _ _ _ _ ⟨⟩) rfl

theorem argument_eq_ok_iff {a : Argument} : p.argument = .ok a ↔ p.Gives a := by
  rw [argument, bind_eq_ok_iff]
  simp only [requireIdent_eq_ok_iff, pure_eq_ok_iff]
  have hgives : p.Gives a ↔ p.Binds a.name a.isMutBinding ∧ a.passing = Passing.ofType p.type := by
    rw [passing_eq_ofType_iff]
    exact ⟨fun h => ⟨h.binds, h.handle, h.value⟩, fun h => ⟨h.1, h.2.1, h.2.2⟩⟩
  rw [hgives, binds_iff]
  constructor
  · rintro ⟨name, hname, rfl⟩
    exact ⟨⟨hname, rfl⟩, rfl⟩
  · rintro ⟨⟨hname, hmut⟩, hpassing⟩
    obtain ⟨name, passing, isMut⟩ := a
    cases hmut
    cases hpassing
    exact ⟨name, hname, rfl⟩

/-! ### The context -/

theorem hasContextType_iff {trees : List TokenTree} {lifetime : String} {isMut : Bool}
    {elem : RustType} (htype : p.type = .reference trees (some lifetime) isMut elem) :
    p.hasContextType target = true ↔
      ∃ path, elem.pathName? = some path ∧ path ∈ target.contextTypes := by
  rw [hasContextType, htype]
  simp [Option.any_eq_true, RuntimeTarget.isContextType]

theorem isContext_iff {trees : List TokenTree} {lifetime lifetime' : String} {isMut : Bool}
    {elem : RustType} (htype : p.type = .reference trees (some lifetime) isMut elem) :
    p.IsContext target lifetime' ↔
      lifetime' = lifetime ∧ (Tagged p.attributes ∨ p.hasContextType target = true) := by
  rw [hasContextType_iff htype, IsContext, htype]
  constructor
  · rintro ⟨_, _, _, heq, h⟩
    cases heq
    exact ⟨rfl, h⟩
  · rintro ⟨rfl, h⟩
    exact ⟨trees, isMut, elem, rfl, h⟩

theorem not_isContext {lifetime : String} (h : p.referenceLifetime? = none) :
    ¬p.IsContext target lifetime := by
  rintro ⟨trees, isMut, elem, htype, -⟩
  rw [referenceLifetime?, htype] at h
  cases h

theorem referenceLifetime?_eq_some {lifetime : String} (h : p.referenceLifetime? = some lifetime) :
    ∃ trees isMut elem, p.type = .reference trees (some lifetime) isMut elem := by
  rw [referenceLifetime?] at h
  split at h
  · rename_i trees _ isMut elem htype
    cases h
    exact ⟨trees, isMut, elem, htype⟩
  · cases h

theorem context?_eq_some_iff {c : ContextBinding} :
    p.context? target = .ok (some c) ↔
      Accepted p.attributes ∧ p.IsContext target c.lifetime ∧ p.ident? = some c.name := by
  rw [context?, bind_eq_ok_iff]
  simp only [isTaggedContext_eq_ok_iff]
  cases hlifetime : p.referenceLifetime? with
  | none =>
    refine iff_of_false ?_ fun h => not_isContext hlifetime h.2.1
    rintro ⟨isTagged, -, h⟩
    cases isTagged with
    | true => exact atPlace_ne_ok _ _ _ h
    | false => cases h
  | some lifetime =>
    obtain ⟨trees, isMut, elem, htype⟩ := referenceLifetime?_eq_some hlifetime
    rw [isContext_iff htype]
    constructor
    · rintro ⟨isTagged, ⟨haccepted, htagged⟩, h⟩
      dsimp only at h
      split at h
      · rename_i hcontext
        obtain ⟨name, hname, h⟩ := exists_of_bind_eq_ok h
        cases h
        rw [Bool.or_eq_true, htagged] at hcontext
        exact ⟨haccepted, ⟨rfl, hcontext⟩, requireIdent_eq_ok_iff.1 hname⟩
      · cases h
    · rintro ⟨haccepted, ⟨hc, hcontext⟩, hname⟩
      obtain ⟨lifetime', name⟩ := c
      cases hc
      by_cases htagged : Tagged p.attributes
      · refine ⟨true, ⟨haccepted, by simpa using htagged⟩, ?_⟩
        dsimp only
        rw [Bool.true_or, if_pos rfl, requireIdent_eq_ok_iff.2 hname]
        rfl
      · refine ⟨false, ⟨haccepted, by simpa using htagged⟩, ?_⟩
        dsimp only
        rw [Bool.false_or, if_pos (hcontext.resolve_left htagged), requireIdent_eq_ok_iff.2 hname]
        rfl

theorem context?_eq_none_iff :
    p.context? target = .ok none ↔
      Accepted p.attributes ∧ ¬Tagged p.attributes ∧ ∀ lifetime, ¬p.IsContext target lifetime := by
  rw [context?, bind_eq_ok_iff]
  simp only [isTaggedContext_eq_ok_iff]
  cases hlifetime : p.referenceLifetime? with
  | none =>
    constructor
    · rintro ⟨isTagged, ⟨haccepted, htagged⟩, h⟩
      cases isTagged with
      | true => exact absurd h (atPlace_ne_ok _ _ _)
      | false => exact ⟨haccepted, by simpa using htagged, fun _ => not_isContext hlifetime⟩
    · rintro ⟨haccepted, htagged, -⟩
      exact ⟨false, ⟨haccepted, by simpa using htagged⟩, rfl⟩
  | some lifetime =>
    obtain ⟨trees, isMut, elem, htype⟩ := referenceLifetime?_eq_some hlifetime
    simp only [isContext_iff htype]
    constructor
    · rintro ⟨isTagged, ⟨haccepted, htagged⟩, h⟩
      split at h
      · obtain ⟨name, -, h⟩ := exists_of_bind_eq_ok h
        cases h
      · rename_i hcontext
        rw [Bool.or_eq_true, htagged, not_or] at hcontext
        exact ⟨haccepted, hcontext.1, fun _ h => not_or.2 hcontext h.2⟩
    · rintro ⟨haccepted, htagged, hcontext⟩
      have hcontext := not_or.1 fun h => hcontext lifetime ⟨rfl, h⟩
      refine ⟨false, ⟨haccepted, by simpa using htagged⟩, ?_⟩
      rw [Bool.false_or, if_neg hcontext.2]
      rfl

end Parameter

/-! ### Lists of parameters -/

/-- The parameters of a method are in order, whatever its context is. -/
structure Parameter.InOrder (params : List Parameter) : Prop where
  accepted : ∀ p ∈ params, ParameterOptions.Accepted p.attributes
  tagged_is_first : ∀ p ∈ params.tail, ¬ParameterOptions.Tagged p.attributes
  tagged_has_lifetime : ∀ p ∈ params.head?, ParameterOptions.Tagged p.attributes →
    ∃ trees lifetime isMut elem, p.type = .reference trees (some lifetime) isMut elem
  identifiers : ∀ p ∈ params, ∃ name isMut, p.Binds name isMut

structure Method.Classifiable (target : RuntimeTarget) (m : Method) : Prop where
  options : ∃ entries, ItemOptions.ListedIn m.attributes entries ∧
    ∀ e ∈ entries, ItemOptions.Accepts e
  params : Parameter.InOrder m.params
  declared : ∀ p ∈ m.params.head?, ∀ lifetime, p.IsContext target lifetime →
    lifetime ∈ m.lifetimes
  callable : ∀ entries e, ItemOptions.ListedIn m.attributes entries →
    OptionEntry.lastOf "function" entries = some e → e.hasEntries = true →
    m.isAsync = true → m.name ∉ metamethods

/-- The context, if there is one, and the arguments are the parameters in their order. -/
inductive Signature.Splits (target : RuntimeTarget) :
    List Parameter → Option ContextBinding → List Argument → Prop
  | context {first : Parameter} {rest : List Parameter} {c : ContextBinding} {isMut : Bool}
      {args : List Argument} (hcontext : first.IsContext target c.lifetime)
      (hbinds : first.Binds c.name isMut) (hargs : List.Forall₂ Parameter.Gives rest args) :
      Splits target (first :: rest) (some c) args
  | arguments {params : List Parameter} {args : List Argument}
      (hcontext : ∀ p ∈ params.head?, ∀ lifetime, ¬p.IsContext target lifetime)
      (hargs : List.Forall₂ Parameter.Gives params args) : Splits target params none args

structure Signature.Describes (target : RuntimeTarget) (m : Method) (s : Signature) : Prop where
  method : s.method = m
  options : ∃ entries, ItemOptions.ListedIn m.attributes entries ∧ s.options.SetBy entries
  params : Splits target m.params s.context s.args
  free (isMut : Bool) : s.dispatch = .free isMut ↔ s.options.function = some ⟨isMut⟩ ∨
    s.options.function = none ∧ m.receiver = none ∧ isMut = false
  receiver (isMut : Bool) : s.dispatch = .receiver isMut ↔ s.options.function = none ∧
    ∃ r, m.receiver = some r ∧ r.isMut = isMut

namespace Signature

variable {target : RuntimeTarget} {m : Method} {options : ItemOptions}

theorem dispatchOf_eq_free_iff {receiver : Option Receiver} {isMut : Bool} :
    dispatchOf options receiver = .free isMut ↔ options.function = some ⟨isMut⟩ ∨
      options.function = none ∧ receiver = none ∧ isMut = false := by
  cases hfunction : options.function with
  | some function =>
    obtain ⟨isMut'⟩ := function
    simp [dispatchOf, hfunction]
  | none =>
    cases receiver with
    | some receiver => simp [dispatchOf, hfunction]
    | none => simp [dispatchOf, hfunction, eq_comm]

theorem dispatchOf_eq_receiver_iff {receiver : Option Receiver} {isMut : Bool} :
    dispatchOf options receiver = .receiver isMut ↔ options.function = none ∧
      ∃ r, receiver = some r ∧ r.isMut = isMut := by
  cases hfunction : options.function with
  | some function => simp [dispatchOf, hfunction]
  | none =>
    cases receiver with
    | some receiver => simp [dispatchOf, hfunction]
    | none => simp [dispatchOf, hfunction]

theorem faultIf_eq_ok_iff {α : Type} {condition : Prop} [Decidable condition] {place : Location}
    {cause : Cause} {x : Except Fault α} {a : α} :
    (do
      if condition then Fault.atPlace place cause
      x) = .ok a ↔ ¬condition ∧ x = .ok a := by
  by_cases h : condition
  · rw [if_pos h]
    exact iff_of_false (atPlace_ne_ok _ _ _) (by simp [h])
  · rw [if_neg h]
    simp [h]

/-- The steps of classification one by one. -/
theorem classify_eq_ok_iff {s : Signature} :
    classify target options m = .ok s ↔
      ∃ context params args, splitContext target m.params = .ok (context, params) ∧
        (∀ p ∈ params, p.requireNoContext = .ok ()) ∧
        ¬(dispatchOf options m.receiver = .free true ∧ m.isAsync = true ∧
          isMetamethod m.name = true) ∧
        lifetimeDeclared m context = true ∧ params.mapM Parameter.argument = .ok args ∧
        s = ⟨m, options, dispatchOf options m.receiver, context, args⟩ := by
  unfold classify
  rw [bind_eq_ok_iff, Prod.exists]
  refine exists_congr fun context => exists_congr fun params => ?_
  rw [exists_and_left]
  refine and_congr_right fun _ => ?_
  dsimp only
  rw [bind_eq_ok_iff]
  simp only [faultIf_eq_ok_iff, bind_eq_ok_iff, pure_eq_ok_iff, Bool.not_eq_true',
    Bool.not_eq_false]
  constructor
  · rintro ⟨_, hforM, hcallable, hdeclared, args, hargs, rfl⟩
    exact ⟨args, forM_eq_ok_iff.1 hforM, hcallable, hdeclared, hargs, rfl⟩
  · rintro ⟨args, hforM, hcallable, hdeclared, hargs, rfl⟩
    exact ⟨(), forM_eq_ok_iff.2 hforM, hcallable, hdeclared, args, hargs, rfl⟩

theorem splitContext_eq_ok_iff {params rest : List Parameter} {context : Option ContextBinding} :
    splitContext target params = .ok (context, rest) ↔
      (∃ first c, params = first :: rest ∧ context = some c ∧
        first.context? target = .ok (some c)) ∨
      (context = none ∧ rest = params ∧ ∀ p ∈ params.head?, p.context? target = .ok none) := by
  cases params with
  | nil => simp [splitContext, eq_comm]
  | cons first others =>
    rw [splitContext, bind_eq_ok_iff]
    constructor
    · rintro ⟨found, hfound, h⟩
      cases found with
      | some c =>
        cases h
        exact .inl ⟨first, c, rfl, rfl, hfound⟩
      | none =>
        cases h
        exact .inr ⟨rfl, rfl, by simpa using hfound⟩
    · rintro (⟨_, c, hparams, rfl, hfound⟩ | ⟨rfl, rfl, hfound⟩)
      · cases hparams
        exact ⟨some c, hfound, rfl⟩
      · exact ⟨none, hfound first rfl, rfl⟩

theorem gives_of_mapM {params : List Parameter} {args : List Argument} :
    params.mapM Parameter.argument = .ok args ↔ List.Forall₂ Parameter.Gives params args := by
  rw [mapM_eq_ok_iff]
  simp only [Parameter.argument_eq_ok_iff]

/-! ### From the parameters to the context and the arguments -/

theorem identifiers_of_gives {params : List Parameter} {args : List Argument}
    (h : List.Forall₂ Parameter.Gives params args) :
    ∀ p ∈ params, ∃ name isMut, p.Binds name isMut := by
  induction h with
  | nil => simp
  | cons hgives _ ih => exact List.forall_mem_cons.2 ⟨⟨_, _, hgives.binds⟩, ih⟩

theorem exists_gives {params : List Parameter}
    (h : ∀ p ∈ params, ∃ name isMut, p.Binds name isMut) :
    ∃ args, List.Forall₂ Parameter.Gives params args := by
  induction params with
  | nil => exact ⟨[], .nil⟩
  | cons p params ih =>
    obtain ⟨⟨name, isMut, hbinds⟩, hrest⟩ := List.forall_mem_cons.1 h
    obtain ⟨args, hargs⟩ := ih hrest
    have hgives : p.Gives ⟨name, Passing.ofType p.type, isMut⟩ :=
      have hpassing := Parameter.passing_eq_ofType_iff.1 rfl
      ⟨hbinds, hpassing.1, hpassing.2⟩
    exact ⟨_, .cons hgives hargs⟩

theorem exists_splits (target : RuntimeTarget) {params : List Parameter}
    (h : ∀ p ∈ params, ∃ name isMut, p.Binds name isMut) :
    ∃ context args, Splits target params context args := by
  by_cases hcontext : ∃ p ∈ params.head?, ∃ lifetime, p.IsContext target lifetime
  · cases params with
    | nil => simp at hcontext
    | cons first rest =>
      obtain ⟨_, hfirst, lifetime, hcontext⟩ := hcontext
      cases hfirst
      obtain ⟨⟨name, isMut, hbinds⟩, hrest⟩ := List.forall_mem_cons.1 h
      obtain ⟨args, hargs⟩ := exists_gives hrest
      exact ⟨some ⟨lifetime, name⟩, args, .context hcontext hbinds hargs⟩
  · obtain ⟨args, hargs⟩ := exists_gives h
    exact ⟨none, args, .arguments (fun p hp l hl => hcontext ⟨p, hp, l, hl⟩) hargs⟩

/-- The steps of classification that read the parameters. -/
theorem steps_iff {params : List Parameter} {context : Option ContextBinding}
    {args : List Argument} :
    (∃ rest, splitContext target params = .ok (context, rest) ∧
      (∀ p ∈ rest, p.requireNoContext = .ok ()) ∧ rest.mapM Parameter.argument = .ok args) ↔
    Parameter.InOrder params ∧ Splits target params context args := by
  simp only [splitContext_eq_ok_iff, Parameter.requireNoContext_eq_ok_iff, gives_of_mapM]
  constructor
  · rintro ⟨rest, ⟨first, c, rfl, rfl, hfirst⟩ | ⟨rfl, rfl, hfirst⟩, hrest, hargs⟩
    · obtain ⟨haccepted, hcontext, hident⟩ := Parameter.context?_eq_some_iff.1 hfirst
      have hbinds := Parameter.binds_iff.2 ⟨hident, rfl⟩
      refine ⟨⟨?_, fun p hp => (hrest p hp).2, ?_, ?_⟩, .context hcontext hbinds hargs⟩
      · exact List.forall_mem_cons.2 ⟨haccepted, fun p hp => (hrest p hp).1⟩
      · rintro _ ⟨⟩ -
        obtain ⟨trees, isMut, elem, htype, -⟩ := hcontext
        exact ⟨trees, c.lifetime, isMut, elem, htype⟩
      · exact List.forall_mem_cons.2 ⟨⟨_, _, hbinds⟩, identifiers_of_gives hargs⟩
    · have hfirst (p) (hp : p ∈ rest.head?) := Parameter.context?_eq_none_iff.1 (hfirst p hp)
      refine ⟨⟨fun p hp => (hrest p hp).1, ?_, ?_, identifiers_of_gives hargs⟩,
        .arguments (fun p hp => (hfirst p hp).2.2) hargs⟩
      · exact fun p hp => (hrest p (List.mem_of_mem_tail hp)).2
      · exact fun p hp htagged => absurd htagged (hfirst p hp).2.1
  · rintro ⟨horder, hsplits⟩
    cases hsplits with
    | context hcontext hbinds hargs =>
      obtain ⟨haccepted, hrest⟩ := List.forall_mem_cons.1 horder.accepted
      refine ⟨_, .inl ⟨_, _, rfl, rfl, ?_⟩, fun p hp => ?_, hargs⟩
      · exact Parameter.context?_eq_some_iff.2
          ⟨haccepted, hcontext, (Parameter.binds_iff.1 hbinds).1⟩
      · exact ⟨hrest p hp, horder.tagged_is_first p hp⟩
    | arguments hcontext hargs =>
      have hfirst : ∀ p ∈ params.head?, ¬ParameterOptions.Tagged p.attributes := by
        intro p hp htagged
        obtain ⟨trees, lifetime, isMut, elem, htype⟩ := horder.tagged_has_lifetime p hp htagged
        exact hcontext p hp lifetime ⟨trees, isMut, elem, htype, .inl htagged⟩
      refine ⟨params, .inr ⟨rfl, rfl, fun p hp => ?_⟩, fun p hp => ?_, hargs⟩
      · exact Parameter.context?_eq_none_iff.2
          ⟨horder.accepted p (List.mem_of_mem_head? hp), hfirst p hp, hcontext p hp⟩
      · refine ⟨horder.accepted p hp, ?_⟩
        cases params with
        | nil => cases hp
        | cons first rest =>
          rcases List.mem_cons.1 hp with rfl | hp
          · exact hfirst p rfl
          · exact horder.tagged_is_first p hp

/-- A parameter is the context for one lifetime only. -/
theorem isContext_unique {p : Parameter} {lifetime lifetime' : String}
    (h : p.IsContext target lifetime) (h' : p.IsContext target lifetime') :
    lifetime = lifetime' := by
  obtain ⟨_, _, _, htype, -⟩ := h
  obtain ⟨_, _, _, htype', -⟩ := h'
  rw [htype] at htype'
  cases htype'
  rfl

theorem Splits.lifetimeDeclared_iff {context : Option ContextBinding} {args : List Argument}
    (h : Splits target m.params context args) :
    lifetimeDeclared m context = true ↔
      ∀ p ∈ m.params.head?, ∀ lifetime, p.IsContext target lifetime → lifetime ∈ m.lifetimes := by
  generalize hparams : m.params = params at h
  cases h with
  | @context first rest c _ _ hcontext =>
    have hdeclared : lifetimeDeclared m (some c) = true ↔ c.lifetime ∈ m.lifetimes := by
      simp [lifetimeDeclared]
    rw [hdeclared]
    constructor
    · rintro hc _ ⟨⟩ lifetime hlifetime
      rwa [isContext_unique hlifetime hcontext]
    · exact fun hall => hall first rfl c.lifetime hcontext
  | arguments hcontext =>
    exact iff_of_true rfl fun p hp lifetime hlifetime => absurd hlifetime (hcontext p hp lifetime)

theorem callable_iff {entries : List OptionEntry}
    (hlisted : ItemOptions.ListedIn m.attributes entries) (hset : options.SetBy entries) :
    ¬(dispatchOf options m.receiver = .free true ∧ m.isAsync = true ∧
        isMetamethod m.name = true) ↔
      ∀ entries e, ItemOptions.ListedIn m.attributes entries →
        OptionEntry.lastOf "function" entries = some e → e.hasEntries = true →
        m.isAsync = true → m.name ∉ metamethods := by
  have hfree : dispatchOf options m.receiver = .free true ↔
      ∃ e, OptionEntry.lastOf "function" entries = some e ∧ e.hasEntries = true := by
    rw [dispatchOf_eq_free_iff, hset.function]
    simp
  have hmeta : isMetamethod m.name = true ↔ m.name ∈ metamethods := by simp [isMetamethod]
  rw [hfree, hmeta]
  constructor
  · intro h entries' e hlisted' he hentries hasync hname
    cases hlisted.unique hlisted'
    exact h ⟨⟨e, he, hentries⟩, hasync, hname⟩
  · rintro h ⟨⟨e, he, hentries⟩, hasync, hname⟩
    exact h entries e hlisted he hentries hasync hname

theorem dispatch_eq_iff {dispatch : Dispatch} {receiver : Option Receiver} :
    dispatch = dispatchOf options receiver ↔
      (∀ isMut, dispatch = .free isMut ↔ options.function = some ⟨isMut⟩ ∨
        options.function = none ∧ receiver = none ∧ isMut = false) ∧
      ∀ isMut, dispatch = .receiver isMut ↔ options.function = none ∧
        ∃ r, receiver = some r ∧ r.isMut = isMut := by
  simp only [← dispatchOf_eq_free_iff, ← dispatchOf_eq_receiver_iff]
  constructor
  · rintro rfl
    exact ⟨fun _ => Iff.rfl, fun _ => Iff.rfl⟩
  · rintro ⟨hfree, hreceiver⟩
    cases dispatch with
    | receiver isMut => exact ((hreceiver isMut).1 rfl).symm
    | free isMut => exact ((hfree isMut).1 rfl).symm

/-- A method is classified just if it is in order, and then its signature describes it. -/
theorem ofMethod_eq_ok_iff (target : RuntimeTarget) (m : Method) :
    ((∃ s, ofMethod target m = .ok s) ↔ m.Classifiable target) ∧
    ∀ s, ofMethod target m = .ok s ↔ m.Classifiable target ∧ s.Describes target m := by
  have hsignature (s : Signature) :
      ofMethod target m = .ok s ↔ m.Classifiable target ∧ s.Describes target m := by
    rw [ofMethod, bind_eq_ok_iff]
    simp only [ItemOptions.ofAttributes_eq_ok_iff, classify_eq_ok_iff]
    constructor
    · rintro ⟨options, ⟨entries, hlisted, haccepts, hset⟩, context, rest, args, hsplit, hrest,
        hcallable, hdeclared, hargs, rfl⟩
      obtain ⟨horder, hsplits⟩ := steps_iff.1 ⟨rest, hsplit, hrest, hargs⟩
      obtain ⟨hfree, hreceiver⟩ := dispatch_eq_iff.1 (Eq.refl (dispatchOf options m.receiver))
      exact ⟨⟨⟨entries, hlisted, haccepts⟩, horder, hsplits.lifetimeDeclared_iff.1 hdeclared,
          (callable_iff hlisted hset).1 hcallable⟩,
        rfl, ⟨entries, hlisted, hset⟩, hsplits, hfree, hreceiver⟩
    · rintro ⟨hclassifiable, hdescribes⟩
      obtain ⟨method, options, dispatch, context, args⟩ := s
      obtain ⟨rfl, ⟨entries, hlisted, hset⟩, hsplits, hfree, hreceiver⟩ := hdescribes
      obtain ⟨entries', hlisted', haccepts⟩ := hclassifiable.options
      cases hlisted.unique hlisted'
      obtain ⟨rest, hsplit, hrest, hargs⟩ := steps_iff.2 ⟨hclassifiable.params, hsplits⟩
      have hdispatch : dispatch = dispatchOf options method.receiver :=
        dispatch_eq_iff.2 ⟨hfree, hreceiver⟩
      subst hdispatch
      exact ⟨options, ⟨entries, hlisted, haccepts, hset⟩, context, rest, args, hsplit, hrest,
        (callable_iff hlisted hset).2 hclassifiable.callable,
        hsplits.lifetimeDeclared_iff.2 hclassifiable.declared, hargs, rfl⟩
  refine ⟨⟨fun ⟨s, hs⟩ => ((hsignature s).1 hs).1, fun hclassifiable => ?_⟩, hsignature⟩
  obtain ⟨entries, hlisted, haccepts⟩ := hclassifiable.options
  obtain ⟨options, hoptions⟩ := ItemOptions.exists_foldlM_apply haccepts .default
  have hset := (ItemOptions.setBy_of_ofEntries hoptions).2
  obtain ⟨context, args, hsplits⟩ := exists_splits target hclassifiable.params.identifiers
  obtain ⟨hfree, hreceiver⟩ := dispatch_eq_iff.1 (Eq.refl (dispatchOf options m.receiver))
  have hdescribes : Describes target m
      ⟨m, options, dispatchOf options m.receiver, context, args⟩ :=
    ⟨rfl, ⟨entries, hlisted, hset⟩, hsplits, hfree, hreceiver⟩
  exact ⟨_, (hsignature _).2 ⟨hclassifiable, hdescribes⟩⟩

end Signature
end LuaBindings
