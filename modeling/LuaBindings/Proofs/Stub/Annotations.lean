import LuaBindings.Proofs.RustType.Wrappers
import Mathlib.Tactic.SplitIfs

/-!
# Annotations up to wrappers

With no annotations given for the wrappers themselves, a type is annotated like its normal
form, so references and transparent wrappers never show and an optional type shows once at
most (`annotation_of_normal`).
-/

set_option autoImplicit false

namespace LuaBindings.Annotator

open RustType (applied normalApplied normal normalArgs)

def wrappers : List String := optionalWrappers ++ transparentWrappers ++ sequenceTypes

def SparesWrappers (a : Annotator) : Prop := ∀ name ∈ wrappers, a.fixed.get? name = none

variable {a : Annotator} {selfName : Option String} {name : String}

/-! ### Question marks -/

theorem endsOptional_iff {luaType : String} :
    endsOptional luaType = true ↔ luaType.toList.getLast? = some '?' := by
  rw [endsOptional, beq_iff_eq]

theorem endsOptional_optional (luaType : String) : endsOptional (optional luaType) = true := by
  rw [optional]
  by_cases h : endsOptional luaType = true
  · rw [if_pos h, h]
  · rw [if_neg h, endsOptional_iff, String.toList_append]
    exact List.getLast?_concat

theorem optional_optional (luaType : String) : optional (optional luaType) = optional luaType := by
  rw [optional, if_pos (endsOptional_optional luaType)]

theorem required_append_mark (luaType : String) : required (luaType ++ "?") = required luaType := by
  rw [required, required, String.toList_append]
  have hreverse : (luaType.toList ++ "?".toList).reverse = '?' :: luaType.toList.reverse :=
    List.reverse_concat
  rw [hreverse]
  rfl

theorem required_optional (luaType : String) : required (optional luaType) = required luaType := by
  rw [optional]
  by_cases h : endsOptional luaType = true
  · rw [if_pos h]
  · rw [if_neg h, required_append_mark]

/-! ### Wrappers -/

theorem ne_self_of_wrapper (h : name ∈ wrappers) : name ≠ "Self" := by
  revert name
  decide

theorem basic?_of_wrapper (h : name ∈ wrappers) : basic? name = none := by
  revert name
  decide

theorem self?_of_wrapper (h : name ∈ wrappers) (selfName : Option String) :
    self? selfName name = none := by
  cases selfName with
  | none => rfl
  | some text => simp [self?, ne_self_of_wrapper h]

/-- What wraps a type is annotated by what it makes of the type's annotation. -/
theorem named_wrapper (hspares : a.SparesWrappers) (h : name ∈ wrappers) {args : List String}
    {text : String} (happlied : applied? name args = some text) :
    a.named selfName name args = text := by
  rw [named, hspares name h, self?_of_wrapper h, basic?_of_wrapper h, happlied]
  rfl

theorem named_transparent (hspares : a.SparesWrappers) (h : name ∈ transparentWrappers)
    (first : String) (rest : List String) : a.named selfName name (first :: rest) = first := by
  have hoptional : name ∉ optionalWrappers :=
    fun hname => RustType.notMem_transparent_of_optional hname h
  apply named_wrapper hspares (by simp [wrappers, h])
  simp [applied?, h, hoptional]

theorem named_optional (hspares : a.SparesWrappers) (h : name ∈ optionalWrappers) (first : String)
    (rest : List String) : a.named selfName name (first :: rest) = optional first := by
  apply named_wrapper hspares (by simp [wrappers, h])
  simp [applied?, h]

theorem named_sequence (hspares : a.SparesWrappers) (h : name ∈ sequenceTypes) (first : String)
    (rest : List String) : a.named selfName name (first :: rest) = required first ++ "[]" := by
  have hoptional : name ∉ optionalWrappers :=
    fun hname => RustType.notMem_sequence_of_optional hname h
  apply named_wrapper hspares (by simp [wrappers, h])
  simp [applied?, h, hoptional, RustType.notMem_transparent_of_sequence h]

/-! ### Normal forms -/

theorem ofArgs_eq (args : List TypeArg) :
    a.ofArgs selfName args = (TypeArg.types args).map (a.ofType selfName) := by
  induction args with
  | nil => rfl
  | cons arg args ih =>
    cases arg with
    | lifetime name => rw [ofArgs, TypeArg.types, ih]
    | type t => rw [ofArgs, TypeArg.types, ih, List.map_cons]

theorem ofType_path (trees : List TokenTree) (leadingColon : Bool) (qualifiers : List PathSegment)
    (name : String) (args : List TypeArg) :
    a.ofType selfName (.path trees leadingColon qualifiers (.mk name args)) =
      a.named selfName name ((TypeArg.types args).map (a.ofType selfName)) := by
  rw [ofType, ofSegment, ofArgs_eq]

theorem ofType_applied (name : String) (args : List RustType) :
    a.ofType selfName (applied name args) =
      a.named selfName name (args.map (a.ofType selfName)) := by
  rw [applied, ofType_path, RustType.types_map_type]

theorem ofType_of_element? (hspares : a.SparesWrappers) {t elem : RustType}
    (h : t.element? = some elem) : a.ofType selfName t = optional (a.ofType selfName elem) := by
  cases t with
  | reference => cases h
  | tuple => cases h
  | other => cases h
  | path trees leadingColon qualifiers last =>
    obtain ⟨name, args⟩ := last
    cases args with
    | nil => cases h
    | cons arg args =>
      cases arg with
      | lifetime => cases h
      | type first =>
        by_cases hname : name ∈ optionalWrappers
        · simp only [RustType.element?, List.contains_iff_mem, hname, if_true] at h
          cases h
          rw [ofType_path, TypeArg.types, List.map_cons, named_optional hspares hname]
        · simp [RustType.element?, hname] at h

theorem required_ofType (hspares : a.SparesWrappers) (t : RustType) :
    required (a.ofType selfName t.required) = required (a.ofType selfName t) := by
  cases helem : t.element? with
  | none => rw [RustType.required_eq_self helem]
  | some elem =>
    rw [RustType.required_of_element? helem, ofType_of_element? hspares helem, required_optional]

theorem ofType_normalApplied (hspares : a.SparesWrappers) (name : String) (args : List RustType) :
    a.ofType selfName (normalApplied name args) =
      a.named selfName name (args.map (a.ofType selfName)) := by
  cases args with
  | nil => exact ofType_applied name []
  | cons first rest =>
    by_cases ht : name ∈ transparentWrappers
    · rw [RustType.normalApplied_transparent ht, List.map_cons, named_transparent hspares ht]
    by_cases ho : name ∈ optionalWrappers
    · cases helem : first.element? with
      | none => rw [RustType.normalApplied_optional ho helem, ofType_applied]
      | some elem =>
        rw [RustType.normalApplied_nested ho helem, List.map_cons, named_optional hspares ho,
          ofType_of_element? hspares helem, optional_optional]
    by_cases hs : name ∈ sequenceTypes
    · rw [RustType.normalApplied_sequence hs, ofType_applied, List.map_cons, List.map_cons,
        named_sequence hspares hs, named_sequence hspares hs, required_ofType hspares]
    · rw [RustType.normalApplied_plain ht ho hs, ofType_applied]

mutual

theorem ofType_normal (hspares : a.SparesWrappers) :
    ∀ t : RustType, a.ofType selfName t.normal = a.ofType selfName t
  | .reference _ _ _ elem => by rw [normal, ofType, ofType_normal hspares elem]
  | .tuple .. => rfl
  | .path _ _ _ (.mk name args) => by
    rw [normal, RustType.normalSegment, ofType_normalApplied hspares, ofType, ofSegment,
      ofArgs_normal hspares args]
  | .other _ => rfl

theorem ofArgs_normal (hspares : a.SparesWrappers) :
    ∀ args : List TypeArg, (normalArgs args).map (a.ofType selfName) = a.ofArgs selfName args
  | [] => rfl
  | .lifetime _ :: rest => by rw [normalArgs, ofArgs, ofArgs_normal hspares rest]
  | .type t :: rest => by
    rw [normalArgs, List.map_cons, ofArgs, ofType_normal hspares t, ofArgs_normal hspares rest]

end

/-- Steps do not show in the annotation. -/
theorem ofType_of_rewrapped (hspares : a.SparesWrappers) {t t' : RustType} (h : t.Rewrapped t') :
    a.ofType selfName t' = a.ofType selfName t := by
  rw [← ofType_normal hspares t', ← ofType_normal hspares t, h.normal_eq]

/-! ### Two question marks -/

inductive Given (a : Annotator) (selfName : Option String) : String → Prop
  | fixed {name text : String} (h : a.fixed.get? name = some text) : Given a selfName text
  | self {text : String} (h : selfName = some text) : Given a selfName text
  | className {name text : String} (h : a.classNames.get? name = some text) : Given a selfName text

def endsTwice (luaType : String) : Prop := ['?', '?'] <:+ luaType.toList

theorem endsOptional_of_endsTwice {luaType : String} (h : endsTwice luaType) :
    endsOptional luaType = true := by
  obtain ⟨front, h⟩ := h
  rw [endsOptional_iff, ← h]
  simp

theorem not_endsTwice_append {front back : String} (hback : back.toList.getLast?.any (· ≠ '?')) :
    ¬endsTwice (front ++ back) := by
  intro h
  have hlast := endsOptional_iff.1 (endsOptional_of_endsTwice h)
  rw [String.toList_append, List.getLast?_append] at hlast
  cases hend : back.toList.getLast? with
  | none => simp [hend] at hback
  | some c => simp_all

theorem endsTwice_of_optional {luaType : String} (h : endsTwice (optional luaType)) :
    endsTwice luaType ∧ optional luaType = luaType := by
  rw [optional] at h ⊢
  by_cases hends : endsOptional luaType = true
  · rw [if_pos hends] at h ⊢
    exact ⟨h, rfl⟩
  · rw [if_neg hends] at h
    obtain ⟨front, h⟩ := h
    rw [String.toList_append] at h
    have hback : (front ++ ['?']) ++ ['?'] = luaType.toList ++ ['?'] := by simpa using h
    rw [endsOptional_iff, ← List.append_cancel_right hback] at hends
    simp at hends

theorem self?_eq_some {text : String} (h : self? selfName name = some text) :
    selfName = some text := by
  unfold self? at h
  split at h
  · split_ifs at h
    exact h
  · cases h

theorem not_endsTwice_basic {text : String} (h : basic? name = some text) : ¬endsTwice text := by
  intro htwice
  have hends := endsOptional_of_endsTwice htwice
  unfold basic? at h
  split_ifs at h <;> cases h <;> simp [endsOptional] at hends

/-- Only what an argument is annotated with ends in two question marks. -/
theorem mem_of_endsTwice_applied {args : List String} {text : String}
    (h : applied? name args = some text) (htwice : endsTwice text) : text ∈ args := by
  revert h
  fun_cases applied? name args with
  | case1 => nofun
  | case2 =>
    intro h
    cases h
    rw [(endsTwice_of_optional htwice).2]
    exact List.mem_cons_self
  | case3 =>
    intro h
    cases h
    exact List.mem_cons_self
  | case4 =>
    intro h
    cases h
    exact absurd htwice (not_endsTwice_append (by decide))
  | case5 =>
    intro h
    cases h
    exact absurd htwice (not_endsTwice_append (by decide))
  | case6 => nofun
  | case7 => nofun

theorem given_of_endsTwice_named {args : List String}
    (hargs : ∀ text ∈ args, endsTwice text → a.Given selfName text)
    (h : endsTwice (a.named selfName name args)) : a.Given selfName (a.named selfName name args) := by
  rw [named] at h ⊢
  cases hfixed : a.fixed.get? name with
  | some text => exact .fixed hfixed
  | none =>
    cases hself : self? selfName name with
    | some text => exact .self (self?_eq_some hself)
    | none =>
      cases hbasic : basic? name with
      | some text =>
        rw [hfixed, hself, hbasic] at h
        exact absurd h (not_endsTwice_basic hbasic)
      | none =>
        cases happlied : applied? name args with
        | some text =>
          rw [hfixed, hself, hbasic, happlied] at h
          exact hargs text (mem_of_endsTwice_applied happlied h) h
        | none =>
          cases hclass : a.classNames.get? name with
          | some text => exact .className hclass
          | none =>
            rw [hfixed, hself, hbasic, happlied, hclass] at h
            exact absurd (endsOptional_of_endsTwice h) (by decide)

mutual

theorem given_of_endsTwice :
    ∀ t : RustType, endsTwice (a.ofType selfName t) → a.Given selfName (a.ofType selfName t)
  | .reference _ _ _ elem, h => given_of_endsTwice elem h
  | .tuple _ elems, h => by
    rw [ofType] at h
    cases elems with
    | nil => exact absurd (endsOptional_of_endsTwice h) (by decide)
    | cons =>
      have hany : endsTwice "any" := h
      exact absurd (endsOptional_of_endsTwice hany) (by decide)
  | .path _ _ _ (.mk _ args), h => given_of_endsTwice_named (given_of_endsTwice_args args) h
  | .other trees, h => by
    rw [ofType, ofOther] at h
    split_ifs at h
    · exact absurd (endsOptional_of_endsTwice h) (by decide)
    · exact absurd (endsOptional_of_endsTwice h) (by decide)

theorem given_of_endsTwice_args : ∀ args : List TypeArg,
    ∀ text ∈ a.ofArgs selfName args, endsTwice text → a.Given selfName text
  | [], _, h => nomatch h
  | .lifetime _ :: rest, text, h => given_of_endsTwice_args rest text h
  | .type t :: rest, text, h => by
    rw [ofArgs] at h
    cases h with
    | head => exact given_of_endsTwice t
    | tail _ h => exact given_of_endsTwice_args rest text h

end

/-- A type is annotated like its normal form, in which nothing is left to leave out, and like
every type that steps take it to; a transparent wrapper may stand on either side of an optional.
An annotation ends in two question marks only if it is a given text. -/
theorem annotation_of_normal (hspares : a.SparesWrappers) (selfName : Option String)
    (t : RustType) :
    t.normal.IsNormal ∧ a.ofType selfName t.normal = a.ofType selfName t ∧
    (∀ t', t.Rewrapped t' → a.ofType selfName t' = a.ofType selfName t) ∧
    (∀ wrapper ∈ transparentWrappers, ∀ name,
      a.ofType selfName (applied wrapper [applied name [t]]) =
        a.ofType selfName (applied name [applied wrapper [t]])) ∧
    (endsTwice (a.ofType selfName t) → a.Given selfName (a.ofType selfName t)) := by
  refine ⟨RustType.isNormal_normal t, ofType_normal hspares t, ?_, ?_, given_of_endsTwice t⟩
  · intro t' h
    exact ofType_of_rewrapped hspares h
  · intro wrapper h name
    exact ofType_of_rewrapped hspares (RustType.rewrapped_across h name t)

/-- An optional type behind wrappers and a reference, with an annotation that is optional too. -/
theorem annotation_of_normal_color :
    let a : Annotator := ⟨[("LuaPaint", "Paint")], [("Color", "integer|string?")]⟩
    let color : RustType := .path [] true [.mk "gfx" []] (.mk "Color" [.lifetime "'a"])
    let t : RustType := .reference [] none true
      (applied "Vec" [applied "Box" [applied "Option" [applied "LuaFallible" [color]]]])
    a.SparesWrappers ∧ t.normal = applied "Vec" [applied "Color" []] ∧ t.normal.IsNormal ∧
      a.ofType none t.normal = a.ofType none t ∧ a.ofType none t = "integer|string[]" := by
  intro a color t
  have hspares : a.SparesWrappers := by
    intro name
    revert name
    decide
  obtain ⟨hnormal, hsame, -⟩ := annotation_of_normal hspares none t
  exact ⟨hspares, rfl, hnormal, hsame, by decide⟩

end LuaBindings.Annotator
