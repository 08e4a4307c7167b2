import LuaBindings.Proofs.Token.Thinning
import LuaBindings.Token.Comment

/-!
# Counting comment marks

The marks `/*` and `*/` are read in pairs of characters from the left. A nested comment
ends where as many have been closed as opened, which is how `countedComment` says it; the
recogniser that keeps the depth while it reads takes the same.
-/

set_option autoImplicit false

namespace LuaBindings.Terminal

def openMarks : List Char → Int
  | [] => 0
  | '/' :: '*' :: rest => openMarks rest + 1
  | '*' :: '/' :: rest => openMarks rest - 1
  | _ :: rest => openMarks rest

/-- Up to the first place behind the opening mark where no comment is open. -/
def countedComment (text : List Char) : Option (List Char × List Char) :=
  if ['/', '*'] <+: text then
    ((List.range (text.length + 1)).find? fun n =>
      decide (2 ≤ n) && decide (openMarks (text.take n) = 0)).map text.splitAt
  else none

theorem openMarks_take_succ {c : Char} {rest : List Char}
    (hopen : ∀ back, c = '/' → rest = '*' :: back → False)
    (hclose : ∀ back, c = '*' → rest = '/' :: back → False) (n : Nat) :
    openMarks ((c :: rest).take (n + 1)) = openMarks (rest.take n) := by
  have hhead : ∀ d back, rest.take n = d :: back → rest = d :: rest.drop 1 := by
    intro d back h
    cases rest with
    | nil => simp at h
    | cons e rest =>
      cases n with
      | zero => simp at h
      | succ n => simpa using (List.cons.inj h).1
  rw [List.take_succ_cons, openMarks]
  · exact fun back hc h => hopen _ hc (hhead _ _ h)
  · exact fun back hc h => hclose _ hc (hhead _ _ h)

theorem openMarks_take_open (rest : List Char) (n : Nat) :
    openMarks (('/' :: '*' :: rest).take (n + 2)) = openMarks (rest.take n) + 1 := by
  rw [List.take_succ_cons, List.take_succ_cons, openMarks]

theorem openMarks_take_close (rest : List Char) (n : Nat) :
    openMarks (('*' :: '/' :: rest).take (n + 2)) = openMarks (rest.take n) - 1 := by
  rw [List.take_succ_cons, List.take_succ_cons, openMarks]

/-- No closing mark stands where a depth that is zero and one that is not refuse it. -/
theorem closes_not {depth : Nat} {c : Char} {rest : List Char}
    (hzero : ∀ back, depth = 0 → c = '*' → rest = '/' :: back → False)
    (hsucc : ∀ depth' back, depth = depth' + 1 → c = '*' → rest = '/' :: back → False) :
    ∀ back, c = '*' → rest = '/' :: back → False := by
  intro back
  cases depth with
  | zero => exact hzero back rfl
  | succ depth => exact hsucc depth back rfl

/-- One character is no mark. -/
theorem openMarks_take_of_lt (text : List Char) {n : Nat} (hn : n < 2) :
    openMarks (text.take n) = 0 := by
  match n, hn with
  | 0, _ => rfl
  | 1, _ => cases text <;> simp [openMarks]

/-- Before the end of the comment some comment is open, and at its end none is. -/
theorem openMarks_of_throughNestedEnd {depth : Nat} {text lexeme rest : List Char}
    (h : throughNestedEnd depth text = some (lexeme, rest)) :
    depth + 1 + openMarks (text.take lexeme.length) = 0 ∧
      ∀ n < lexeme.length, 0 < depth + 1 + openMarks (text.take n) := by
  fun_induction throughNestedEnd depth text generalizing lexeme with
  | case1 => cases h
  | case2 depth rest ih =>
    obtain ⟨tail, hsplit, rfl⟩ := prepend_eq_some h
    obtain ⟨hend, hbefore⟩ := ih hsplit
    push_cast at hend hbefore
    constructor
    · change depth + 1 + openMarks (('/' :: '*' :: rest).take (tail.length + 2)) = 0
      rw [openMarks_take_open]
      omega
    · intro n hn
      by_cases hshort : n < 2
      · rw [openMarks_take_of_lt _ hshort]
        omega
      · obtain ⟨m, rfl⟩ := Nat.exists_eq_add_of_le' (Nat.le_of_not_lt hshort)
        have := hbefore m (by simpa using hn)
        rw [openMarks_take_open]
        omega
  | case3 rest =>
    cases h
    refine ⟨by simp [openMarks], fun n hn => ?_⟩
    rw [openMarks_take_of_lt _ hn]
    decide
  | case4 depth rest ih =>
    obtain ⟨tail, hsplit, rfl⟩ := prepend_eq_some h
    obtain ⟨hend, hbefore⟩ := ih hsplit
    push_cast
    constructor
    · change depth + 1 + 1 + openMarks (('*' :: '/' :: rest).take (tail.length + 2)) = 0
      rw [openMarks_take_close]
      omega
    · intro n hn
      by_cases hshort : n < 2
      · rw [openMarks_take_of_lt _ hshort]
        omega
      · obtain ⟨m, rfl⟩ := Nat.exists_eq_add_of_le' (Nat.le_of_not_lt hshort)
        have := hbefore m (by simpa using hn)
        rw [openMarks_take_close]
        omega
  | case5 depth c rest hopen hclose hclose' ih =>
    obtain ⟨tail, hsplit, rfl⟩ := prepend_eq_some h
    obtain ⟨hend, hbefore⟩ := ih hsplit
    have hmark := closes_not hclose hclose'
    constructor
    · change depth + 1 + openMarks ((c :: rest).take (tail.length + 1)) = 0
      rwa [openMarks_take_succ hopen hmark]
    · intro n hn
      cases n with
      | zero =>
        rw [openMarks_take_of_lt _ Nat.two_pos]
        omega
      | succ n =>
        rw [openMarks_take_succ hopen hmark]
        exact hbefore n (by simpa using hn)

/-- Where the comment does not end, some comment stays open. -/
theorem openMarks_of_throughNestedEnd_eq_none {depth : Nat} {text : List Char}
    (h : throughNestedEnd depth text = none) (n : Nat) :
    0 < depth + 1 + openMarks (text.take n) := by
  fun_induction throughNestedEnd depth text generalizing n with
  | case1 =>
    rw [List.take_nil, openMarks]
    omega
  | case2 depth rest ih =>
    by_cases hshort : n < 2
    · rw [openMarks_take_of_lt _ hshort]
      omega
    · obtain ⟨m, rfl⟩ := Nat.exists_eq_add_of_le' (Nat.le_of_not_lt hshort)
      have := ih (prepend_eq_none_iff.1 h) m
      rw [openMarks_take_open]
      omega
  | case3 => cases h
  | case4 depth rest ih =>
    by_cases hshort : n < 2
    · rw [openMarks_take_of_lt _ hshort]
      omega
    · obtain ⟨m, rfl⟩ := Nat.exists_eq_add_of_le' (Nat.le_of_not_lt hshort)
      have := ih (prepend_eq_none_iff.1 h) m
      rw [openMarks_take_close]
      omega
  | case5 depth c rest hopen hclose hclose' ih =>
    have hmark := closes_not hclose hclose'
    cases n with
    | zero =>
      rw [openMarks_take_of_lt _ Nat.two_pos]
      omega
    | succ n =>
      rw [openMarks_take_succ hopen hmark]
      exact ih (prepend_eq_none_iff.1 h) n

/-- Counting marks and keeping the depth take the same. -/
theorem countedComment_eq (text : List Char) : countedComment text = nestedComment text := by
  unfold countedComment
  split
  · rename_i h
    obtain ⟨rest, rfl⟩ := h
    change _ = prepend ['/', '*'] (throughNestedEnd 0 rest)
    have htake : ∀ n, openMarks ((['/', '*'] ++ rest).take (n + 2)) = openMarks (rest.take n) + 1 :=
      openMarks_take_open rest
    cases hsplit : throughNestedEnd 0 rest with
    | none =>
      have hopen := openMarks_of_throughNestedEnd_eq_none hsplit
      rw [List.find?_eq_none.2]
      · rfl
      · intro n _ hn
        simp only [Bool.and_eq_true, decide_eq_true_eq] at hn
        obtain ⟨n, rfl⟩ := Nat.exists_eq_add_of_le' hn.1
        have := hopen n
        rw [htake] at hn
        omega
    | some split =>
      obtain ⟨lexeme, back⟩ := split
      obtain ⟨hend, hbefore⟩ := openMarks_of_throughNestedEnd hsplit
      have hjoin := throughNestedEnd_splits _ _ _ _ hsplit
      have hfind : (List.range ((['/', '*'] ++ rest).length + 1)).find? (fun n =>
          decide (2 ≤ n) && decide (openMarks ((['/', '*'] ++ rest).take n) = 0)) =
            some (lexeme.length + 2) := by
        refine List.find?_range_eq_some.2 ⟨?_, ?_, fun n hn => ?_⟩
        · have hzero : openMarks (rest.take lexeme.length) + 1 = 0 := by omega
          rw [htake]
          simp [hzero]
        · rw [List.mem_range, ← hjoin]
          simp only [List.length_append, List.length_cons]
          omega
        · by_cases htwo : 2 ≤ n
          · obtain ⟨n, rfl⟩ := Nat.exists_eq_add_of_le' htwo
            have := hbefore n (by omega)
            have hne : openMarks (rest.take n) + 1 ≠ 0 := by omega
            rw [htake]
            simp [hne]
          · simp [htwo]
      rw [hfind, Option.map_some, prepend, ← hjoin]
      simp [List.splitAt_eq]
  · rename_i h
    unfold nestedComment
    split
    · exact absurd ⟨_, rfl⟩ h
    · rfl

end LuaBindings.Terminal
