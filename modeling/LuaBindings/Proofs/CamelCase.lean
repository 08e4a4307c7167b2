import LuaBindings.Text.CamelCase
import Mathlib

/-!
# Names in camel case

What is published for a name has no underscores, so publishing it again changes nothing, and it
has the letters of the name in their order, capital or not.
-/

set_option autoImplicit false

namespace LuaBindings.Text

theorem underscore_notMem_segments (cs : List Char) :
    '_' ∉ (segments cs).1 ∧ ∀ segment ∈ (segments cs).2, '_' ∉ segment := by
  induction cs with
  | nil => simp [segments]
  | cons c rest ih =>
    by_cases hc : c = '_'
    · subst hc
      simpa [segments] using ih
    · simpa [segments, hc, Ne.symm hc] using ih

/-- The segments are what is left of the name without its underscores. -/
theorem append_flatten_segments (cs : List Char) :
    (segments cs).1 ++ (segments cs).2.flatten = cs.filter (· ≠ '_') := by
  induction cs with
  | nil => rfl
  | cons c rest ih =>
    by_cases hc : c = '_'
    · subst hc
      simpa [segments] using ih
    · simpa [segments, hc] using ih

theorem segments_of_underscore_notMem {cs : List Char} (h : '_' ∉ cs) : segments cs = (cs, []) := by
  induction cs with
  | nil => rfl
  | cons c rest ih =>
    obtain ⟨hc, hrest⟩ := not_or.1 (mt List.mem_cons.2 h)
    rw [segments, ih hrest]
    exact if_neg (Ne.symm hc)

theorem toUpper_eq_underscore_iff {c : Char} : c.toUpper = '_' ↔ c = '_' := by
  constructor
  · intro h
    have hletter : ¬c.isLower = true := by
      intro hlower
      have hupper : c.toUpper.isUpper = true := by
        simp [Char.isAlpha, hlower]
      rw [h] at hupper
      cases hupper
    rwa [Char.toUpper_eq_of_not_isLower hletter] at h
  · rintro rfl
    rfl

theorem underscore_notMem_publishSegment {segment : List Char} (h : '_' ∉ segment) :
    '_' ∉ publishSegment segment := by
  rw [publishSegment]
  split
  · simpa [toUpper_eq_underscore_iff] using h
  · cases segment with
    | nil => exact h
    | cons c rest =>
      obtain ⟨hc, hrest⟩ := not_or.1 (mt List.mem_cons.2 h)
      rw [capitalise, List.mem_cons, not_or]
      exact ⟨fun hupper => hc (toUpper_eq_underscore_iff.1 hupper.symm).symm, hrest⟩

theorem toLower_publishSegment (segment : List Char) :
    (publishSegment segment).map Char.toLower = segment.map Char.toLower := by
  rw [publishSegment]
  split
  · simp
  · cases segment with
    | nil => rfl
    | cons c rest => simp [capitalise]

theorem toList_camelCase (name : String) :
    (camelCase name).toList =
      (segments name.toList).1 ++ (segments name.toList).2.flatMap publishSegment := by
  rw [camelCase, String.toList_ofList]

theorem underscore_notMem_camelCase (name : String) : '_' ∉ (camelCase name).toList := by
  obtain ⟨hfirst, hothers⟩ := underscore_notMem_segments name.toList
  rw [toList_camelCase, List.mem_append, List.mem_flatMap]
  rintro (h | ⟨segment, hsegment, h⟩)
  · exact hfirst h
  · exact underscore_notMem_publishSegment (hothers segment hsegment) h

theorem camelCase_camelCase (name : String) : camelCase (camelCase name) = camelCase name := by
  have hsegments := segments_of_underscore_notMem (underscore_notMem_camelCase name)
  apply String.toList_injective
  rw [toList_camelCase (camelCase name), hsegments, List.flatMap_nil, List.append_nil]

/-- Where the case of letters does not count, only the underscores go. -/
theorem toLower_camelCase (name : String) :
    (camelCase name).toList.map Char.toLower =
      (name.toList.filter (· ≠ '_')).map Char.toLower := by
  have hothers : ((segments name.toList).2.flatMap publishSegment).map Char.toLower =
      (segments name.toList).2.flatten.map Char.toLower := by
    rw [List.map_flatMap, List.map_flatten, List.flatMap_def]
    congr 1
    exact List.map_congr_left fun segment _ => toLower_publishSegment segment
  rw [toList_camelCase, List.map_append, hothers, ← List.map_append, append_flatten_segments]

end LuaBindings.Text
