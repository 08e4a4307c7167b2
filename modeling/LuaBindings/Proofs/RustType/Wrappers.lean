import LuaBindings.Annotator
import Mathlib.Logic.Relation

/-!
# Types up to wrappers

Every type has a normal form without references, lifetimes, qualifiers and transparent
wrappers, in which no optional type stands directly in another one or in a sequence. It is
made by steps that leave something out of the type, and types that steps take to one another
are those with one normal form (`rewrapped_iff`).
-/

set_option autoImplicit false

namespace LuaBindings

open Annotator (optionalWrappers transparentWrappers sequenceTypes)

def TypeArg.types : List TypeArg → List RustType
  | [] => []
  | .lifetime _ :: rest => types rest
  | .type t :: rest => t :: types rest

namespace RustType

/-- A path of one segment with nothing but types for arguments. -/
def applied (name : String) (args : List RustType) : RustType :=
  .path [] false [] (.mk name (args.map .type))

def element? : RustType → Option RustType
  | .path _ _ _ (.mk name (.type t :: _)) => if optionalWrappers.contains name then some t else none
  | _ => none

def required (t : RustType) : RustType := t.element?.getD t

/-! ### Normal forms -/

/-- The normal form of a path, from its last name and the normal forms of its types. -/
def normalApplied (name : String) (args : List RustType) : RustType :=
  match args with
  | [] => applied name []
  | first :: rest =>
    if transparentWrappers.contains name then first
    else if optionalWrappers.contains name ∧ first.element?.isSome then first
    else if sequenceTypes.contains name then applied name (first.required :: rest)
    else applied name (first :: rest)

mutual

def normal : RustType → RustType
  | .reference _ _ _ elem => normal elem
  | .tuple trees elems => .tuple trees elems
  | .path _ _ _ last => normalSegment last
  | .other trees => .other trees

def normalSegment : PathSegment → RustType
  | .mk name args => normalApplied name (normalArgs args)

def normalArgs : List TypeArg → List RustType
  | [] => []
  | .lifetime _ :: rest => normalArgs rest
  | .type t :: rest => normal t :: normalArgs rest

end

/-- Types that nothing can be left out of. Tuples and types that are kept as they are have no
parts to look at. -/
inductive IsNormal : RustType → Prop
  | tuple (trees : List TokenTree) (elems : List RustType) : IsNormal (.tuple trees elems)
  | other (trees : List TokenTree) : IsNormal (.other trees)
  | bare (name : String) : IsNormal (applied name [])
  | applied {name : String} {first : RustType} {rest : List RustType}
    (hargs : ∀ t ∈ first :: rest, IsNormal t) (hshows : name ∉ transparentWrappers)
    (hfirst : name ∈ optionalWrappers ++ sequenceTypes → first.element? = none) :
    IsNormal (applied name (first :: rest))

variable {name : String} {t t' elem : RustType} {args rest : List RustType}

theorem notMem_transparent_of_optional (h : name ∈ optionalWrappers) :
    name ∉ transparentWrappers := by
  revert name
  decide

theorem notMem_transparent_of_sequence (h : name ∈ sequenceTypes) :
    name ∉ transparentWrappers := by
  revert name
  decide

theorem notMem_sequence_of_optional (h : name ∈ optionalWrappers) : name ∉ sequenceTypes := by
  revert name
  decide

theorem normalApplied_transparent (h : name ∈ transparentWrappers) (first : RustType) :
    normalApplied name (first :: rest) = first := by
  simp [normalApplied, h]

theorem normalApplied_nested (h : name ∈ optionalWrappers) (hfirst : t.element? = some elem) :
    normalApplied name (t :: rest) = t := by
  simp [normalApplied, notMem_transparent_of_optional h, h, hfirst]

theorem normalApplied_optional (h : name ∈ optionalWrappers) (hfirst : t.element? = none) :
    normalApplied name (t :: rest) = applied name (t :: rest) := by
  simp [normalApplied, notMem_transparent_of_optional h, notMem_sequence_of_optional h, hfirst]

theorem normalApplied_sequence (h : name ∈ sequenceTypes) (first : RustType) :
    normalApplied name (first :: rest) = applied name (first.required :: rest) := by
  have hoptional : name ∉ optionalWrappers := fun hname => notMem_sequence_of_optional hname h
  simp [normalApplied, notMem_transparent_of_sequence h, h, hoptional]

theorem normalApplied_plain (ht : name ∉ transparentWrappers) (ho : name ∉ optionalWrappers)
    (hs : name ∉ sequenceTypes) : normalApplied name args = applied name args := by
  cases args with
  | nil => rfl
  | cons first rest => simp [normalApplied, ht, ho, hs]

theorem element?_applied (h : name ∈ optionalWrappers) (first : RustType) :
    (applied name (first :: rest)).element? = some first := by
  simp [applied, element?, h]

theorem required_of_element? (h : t.element? = some elem) : t.required = elem := by
  rw [required, h, Option.getD_some]

theorem required_eq_self (h : t.element? = none) : t.required = t := by
  rw [required, h, Option.getD_none]

/-- An optional type among the normal ones holds no further optional type. -/
theorem IsNormal.of_element? (h : t.IsNormal) (helem : t.element? = some elem) :
    elem.IsNormal ∧ elem.element? = none := by
  cases h with
  | tuple => cases helem
  | other => cases helem
  | bare => cases helem
  | @applied name first rest hargs _ hfirst =>
    by_cases hname : name ∈ optionalWrappers
    · rw [element?_applied hname] at helem
      cases helem
      exact ⟨hargs elem List.mem_cons_self, hfirst (List.mem_append_left _ hname)⟩
    · simp [RustType.applied, element?, hname] at helem

theorem IsNormal.required (h : t.IsNormal) : t.required.IsNormal ∧ t.required.element? = none := by
  cases helem : t.element? with
  | none =>
    rw [required_eq_self helem]
    exact ⟨h, helem⟩
  | some elem =>
    rw [required_of_element? helem]
    exact h.of_element? helem

theorem isNormal_normalApplied (h : ∀ t ∈ args, t.IsNormal) (name : String) :
    (normalApplied name args).IsNormal := by
  cases args with
  | nil => exact .bare name
  | cons first rest =>
    have hfirst := h first List.mem_cons_self
    by_cases ht : name ∈ transparentWrappers
    · rw [normalApplied_transparent ht]
      exact hfirst
    by_cases ho : name ∈ optionalWrappers
    · cases helem : first.element? with
      | none =>
        rw [normalApplied_optional ho helem]
        exact .applied h ht fun _ => helem
      | some elem =>
        rw [normalApplied_nested ho helem]
        exact hfirst
    by_cases hs : name ∈ sequenceTypes
    · rw [normalApplied_sequence hs]
      apply IsNormal.applied _ ht fun _ => hfirst.required.2
      intro t ht
      cases ht with
      | head => exact hfirst.required.1
      | tail _ ht => exact h t (List.mem_cons_of_mem _ ht)
    · rw [normalApplied_plain ht ho hs]
      apply IsNormal.applied h ht
      intro hname
      simp [ho, hs] at hname

mutual

theorem isNormal_normal : ∀ t : RustType, t.normal.IsNormal
  | .reference _ _ _ elem => by
    rw [normal]
    exact isNormal_normal elem
  | .tuple trees elems => .tuple trees elems
  | .path _ _ _ (.mk name args) => isNormal_normalApplied (isNormal_normalArgs args) name
  | .other trees => .other trees

theorem isNormal_normalArgs : ∀ args : List TypeArg, ∀ t ∈ normalArgs args, t.IsNormal
  | [], _, ht => nomatch ht
  | .lifetime _ :: rest, t, ht => isNormal_normalArgs rest t ht
  | .type first :: rest, t, ht => by
    cases ht with
    | head => exact isNormal_normal first
    | tail _ ht => exact isNormal_normalArgs rest t ht

end

theorem normalArgs_eq (args : List TypeArg) :
    normalArgs args = (TypeArg.types args).map normal := by
  induction args with
  | nil => rfl
  | cons arg args ih =>
    cases arg with
    | lifetime name => simp [normalArgs, TypeArg.types, ih]
    | type t => simp [normalArgs, TypeArg.types, ih]

theorem types_map_type (args : List RustType) : TypeArg.types (args.map .type) = args := by
  induction args with
  | nil => rfl
  | cons first rest ih => rw [List.map_cons, TypeArg.types, ih]

theorem normal_path (trees : List TokenTree) (leadingColon : Bool) (qualifiers : List PathSegment)
    (name : String) (args : List TypeArg) :
    (path trees leadingColon qualifiers (.mk name args)).normal =
      normalApplied name ((TypeArg.types args).map normal) := by
  rw [normal, normalSegment, normalArgs_eq]

theorem normal_applied (name : String) (args : List RustType) :
    (applied name args).normal = normalApplied name (args.map normal) := by
  rw [applied, normal_path, types_map_type]

/-- In a normal type there is nothing left to normalise. -/
theorem IsNormal.normal_eq (h : t.IsNormal) : t.normal = t := by
  induction h with
  | tuple => rfl
  | other => rfl
  | bare => rfl
  | @applied name first rest _ hshows hfirst ih =>
    have hargs : (first :: rest).map normal = first :: rest :=
      (List.map_congr_left ih).trans (List.map_id _)
    rw [normal_applied, hargs]
    by_cases ho : name ∈ optionalWrappers
    · exact normalApplied_optional ho (hfirst (List.mem_append_left _ ho))
    by_cases hs : name ∈ sequenceTypes
    · rw [normalApplied_sequence hs, required_eq_self (hfirst (List.mem_append_right _ hs))]
    · exact normalApplied_plain hshows ho hs

/-! ### Rewriting -/

/-- One step that leaves something out of a type, at any depth. -/
inductive Step : RustType → RustType → Prop
  | reference (trees : List TokenTree) (lifetime : Option String) (isMut : Bool) (t : RustType) :
    Step (.reference trees lifetime isMut t) t
  | path (trees : List TokenTree) (leadingColon : Bool) (qualifiers : List PathSegment)
    (name : String) (args : List TypeArg) :
    Step (.path trees leadingColon qualifiers (.mk name args))
      (applied name (TypeArg.types args))
  | transparent {name : String} (h : name ∈ transparentWrappers) (t : RustType)
    (rest : List RustType) : Step (applied name (t :: rest)) t
  | nested {name : String} {t elem : RustType} (h : name ∈ optionalWrappers)
    (ht : t.element? = some elem) (rest : List RustType) : Step (applied name (t :: rest)) t
  | inSequence {name : String} {t elem : RustType} (h : name ∈ sequenceTypes)
    (ht : t.element? = some elem) (rest : List RustType) :
    Step (applied name (t :: rest)) (applied name (elem :: rest))
  | argument {t t' : RustType} (h : Step t t') (name : String) (before rest : List RustType) :
    Step (applied name (before ++ t :: rest)) (applied name (before ++ t' :: rest))

/-- Types that steps take to one another, in either direction. -/
def Rewrapped : RustType → RustType → Prop := Relation.EqvGen Step

theorem Step.rewrapped (h : Step t t') : t.Rewrapped t' := .rel _ _ h

theorem element?_normal (h : t.element? = some elem) :
    t.normal.element? = some elem.normal.required := by
  cases t with
  | reference => cases h
  | tuple => cases h
  | other => cases h
  | path trees leadingColon qualifiers last =>
    obtain ⟨name, args⟩ := last
    cases args with
    | nil => cases h
    | cons arg args =>
      cases arg with
      | lifetime => cases h
      | type first =>
        by_cases hname : name ∈ optionalWrappers
        · simp [element?, hname] at h
          subst h
          rw [normal_path, TypeArg.types, List.map_cons]
          cases helem : first.normal.element? with
          | none =>
            rw [normalApplied_optional hname helem, element?_applied hname,
              required_eq_self helem]
          | some inner =>
            rw [normalApplied_nested hname helem, helem, required_of_element? helem]
        · simp [element?, hname] at h

theorem Step.normal_eq (h : Step t t') : t.normal = t'.normal := by
  induction h with
  | reference => rw [normal]
  | path trees leadingColon qualifiers name args => rw [normal_path, normal_applied]
  | transparent h t rest => rw [normal_applied, List.map_cons, normalApplied_transparent h]
  | nested h ht rest =>
    rw [normal_applied, List.map_cons, normalApplied_nested h (element?_normal ht)]
  | inSequence h ht rest =>
    rw [normal_applied, normal_applied, List.map_cons, List.map_cons, normalApplied_sequence h,
      normalApplied_sequence h, required_of_element? (element?_normal ht)]
  | argument _ name before rest ih =>
    rw [normal_applied, normal_applied, List.map_append, List.map_append, List.map_cons,
      List.map_cons, ih]

theorem Rewrapped.normal_eq (h : t.Rewrapped t') : t.normal = t'.normal := by
  induction h with
  | rel _ _ h => exact h.normal_eq
  | refl => rfl
  | symm _ _ _ ih => exact ih.symm
  | trans _ _ _ _ _ ih ih' => exact ih.trans ih'

theorem Rewrapped.argument (h : t.Rewrapped t') (name : String) (before rest : List RustType) :
    (applied name (before ++ t :: rest)).Rewrapped (applied name (before ++ t' :: rest)) := by
  induction h with
  | rel _ _ h => exact (h.argument name before rest).rewrapped
  | refl => exact .refl _
  | symm _ _ _ ih => exact ih.symm
  | trans _ _ _ _ _ ih ih' => exact ih.trans _ _ _ ih'

theorem Rewrapped.arguments (name : String) (before : List RustType)
    (h : ∀ t ∈ args, t.Rewrapped t.normal) :
    (applied name (before ++ args)).Rewrapped (applied name (before ++ args.map normal)) := by
  induction args generalizing before with
  | nil => exact .refl _
  | cons first rest ih =>
    have hfirst := (h first List.mem_cons_self).argument name before rest
    have hrest := ih (before ++ [first.normal]) fun t ht => h t (List.mem_cons_of_mem _ ht)
    rw [List.append_assoc, List.append_assoc] at hrest
    exact hfirst.trans _ _ _ hrest

theorem rewrapped_normalApplied (name : String) (args : List RustType) :
    (applied name args).Rewrapped (normalApplied name args) := by
  cases args with
  | nil => exact .refl _
  | cons first rest =>
    by_cases ht : name ∈ transparentWrappers
    · rw [normalApplied_transparent ht]
      exact (Step.transparent ht first rest).rewrapped
    by_cases ho : name ∈ optionalWrappers
    · cases helem : first.element? with
      | none =>
        rw [normalApplied_optional ho helem]
        exact .refl _
      | some elem =>
        rw [normalApplied_nested ho helem]
        exact (Step.nested ho helem rest).rewrapped
    by_cases hs : name ∈ sequenceTypes
    · rw [normalApplied_sequence hs]
      cases helem : first.element? with
      | none =>
        rw [required_eq_self helem]
        exact .refl _
      | some elem =>
        rw [required_of_element? helem]
        exact (Step.inSequence hs helem rest).rewrapped
    · rw [normalApplied_plain ht ho hs]
      exact .refl _

mutual

theorem rewrapped_normal : ∀ t : RustType, t.Rewrapped t.normal
  | .reference trees lifetime isMut elem => by
    rw [normal]
    exact (Step.reference trees lifetime isMut elem).rewrapped.trans _ _ _ (rewrapped_normal elem)
  | .tuple _ _ => .refl _
  | .path trees leadingColon qualifiers (.mk name args) => by
    have hargs := Rewrapped.arguments name [] (rewrapped_args args)
    rw [normal_path]
    exact (Step.path trees leadingColon qualifiers name args).rewrapped.trans _ _ _
      (hargs.trans _ _ _ (rewrapped_normalApplied name _))
  | .other _ => .refl _

theorem rewrapped_args : ∀ args : List TypeArg,
    ∀ t ∈ TypeArg.types args, t.Rewrapped t.normal
  | [], _, ht => nomatch ht
  | .lifetime _ :: rest, t, ht => rewrapped_args rest t ht
  | .type first :: rest, t, ht => by
    rw [TypeArg.types] at ht
    cases ht with
    | head => exact rewrapped_normal first
    | tail _ ht => exact rewrapped_args rest t ht

end

/-- Types that steps take to one another are those with one normal form. -/
theorem rewrapped_iff : t.Rewrapped t' ↔ t.normal = t'.normal := by
  constructor
  · exact Rewrapped.normal_eq
  · intro h
    have ht := rewrapped_normal t
    rw [h] at ht
    exact ht.trans _ _ _ (rewrapped_normal t').symm

/-- A transparent wrapper can be moved across an optional. -/
theorem rewrapped_across {wrapper : String} (h : wrapper ∈ transparentWrappers) (name : String)
    (t : RustType) : (applied name [applied wrapper [t]]).Rewrapped
      (applied wrapper [applied name [t]]) := by
  have hinner : (applied name [applied wrapper [t]]).Rewrapped (applied name [t]) :=
    (Step.transparent h t []).rewrapped.argument name [] []
  exact hinner.trans _ _ _ (Step.transparent h (applied name [t]) []).rewrapped.symm

end RustType
end LuaBindings
