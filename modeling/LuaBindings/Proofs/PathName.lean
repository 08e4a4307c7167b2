import LuaBindings.Text.PathName

/-!
# The components of names

A stem is a component, so it holds no slash. The member of a directory is the last component of
the joined name.
-/

set_option autoImplicit false

namespace LuaBindings.Text.PathName

theorem slash_notMem_of_mem_splitOn {text part : List Char} (h : part ∈ text.splitOn '/') :
    '/' ∉ part := by
  induction text generalizing part with
  | nil =>
    rw [List.splitOn_nil, List.mem_singleton] at h
    rw [h]
    exact List.not_mem_nil
  | cons c text ih =>
    rw [List.splitOn_cons_eq_if_modifyHead] at h
    split at h
    · rcases List.mem_cons.1 h with rfl | h
      · exact List.not_mem_nil
      · exact ih h
    · rename_i hc
      cases hsplit : text.splitOn '/' with
      | nil => exact absurd hsplit (List.splitOn_ne_nil _ _)
      | cons first others =>
        rw [hsplit, List.modifyHead_cons] at h
        rcases List.mem_cons.1 h with rfl | h
        · rw [List.mem_cons, not_or]
          refine ⟨fun hslash => hc (by simp [← hslash]), ih ?_⟩
          rw [hsplit]
          exact List.mem_cons_self
        · refine ih ?_
          rw [hsplit]
          exact List.mem_cons_of_mem _ h

theorem beforeLastDot?_front {text front : List Char} (h : beforeLastDot? text = some front) :
    front <+: text := by
  induction text generalizing front with
  | nil => cases h
  | cons c text ih =>
    rw [beforeLastDot?] at h
    cases hrest : beforeLastDot? text with
    | some rest =>
      rw [hrest] at h
      cases h
      exact (List.prefix_cons_inj c).2 (ih hrest)
    | none =>
      rw [hrest] at h
      dsimp only at h
      split at h
      · cases h
        exact List.nil_prefix
      · cases h

theorem dropExtension_front (component : List Char) : dropExtension component <+: component := by
  rw [dropExtension]
  split
  · rename_i front hfront
    split
    · exact List.prefix_rfl
    · exact beforeLastDot?_front hfront
  · exact List.prefix_rfl

theorem slash_notMem_stem (name : String) : '/' ∉ (stem name).toList := by
  have hbase : '/' ∉ (baseName name).toList := by
    rw [baseName, components, List.getLastD_eq_getLast?, List.getLast?_map]
    cases hlast : (name.toList.splitOn '/').getLast? with
    | none => simp
    | some part =>
      simpa using slash_notMem_of_mem_splitOn (List.mem_of_getLast? hlast)
  rw [stem, String.toList_ofList]
  exact fun hslash => hbase ((dropExtension_front _).subset hslash)

theorem components_join (directory : String) {member : String} (h : '/' ∉ member.toList) :
    ∃ front, components (join directory member) = front ++ [member] := by
  have hmember : member.toList.splitOn '/' = [member.toList] := List.splitOn_eq_singleton h
  have hback : ∀ front : List Char,
      ((front ++ '/' :: member.toList).splitOn '/').map String.ofList =
        (front.splitOn '/').map String.ofList ++ [member] := by
    intro front
    rw [List.splitOn_append_cons_self, hmember, List.map_append, List.map_singleton,
      String.ofList_toList]
  rw [components, join]
  split
  · rename_i hdirectory
    rw [Bool.or_eq_true] at hdirectory
    rcases hdirectory with hempty | hslash
    · refine ⟨[], ?_⟩
      rw [String.isEmpty_iff.1 hempty, String.empty_append, hmember, List.map_singleton,
        String.ofList_toList]
      rfl
    · have hlast : directory.toList.getLast? = some '/' := by simpa using hslash
      obtain ⟨front, hfront⟩ := List.getLast?_eq_some_iff.1 hlast
      refine ⟨(front.splitOn '/').map String.ofList, ?_⟩
      rw [String.toList_append, hfront, List.append_assoc, List.singleton_append, hback]
  · refine ⟨(directory.toList.splitOn '/').map String.ofList, ?_⟩
    rw [String.toList_append, String.toList_append, List.append_assoc]
    exact hback directory.toList

end LuaBindings.Text.PathName
