import LuaBindings.Cursor
import Mathlib.Data.List.Forall2
import Mathlib.Tactic.Common

/-!
# What readers take

A reader that succeeds has taken trees from the front of what was left, and the cursor
stands behind them.
-/

set_option autoImplicit false

namespace LuaBindings

theorem Failure.refuse_eq_ok {α : Type} {failures : List Failure} {a b : α}
    (h : refuse failures a = .ok b) : failures = [] ∧ a = b := by
  cases failures with
  | nil =>
    cases h
    exact ⟨rfl, rfl⟩
  | cons f failures => cases h

theorem eq_ok_of_toOption {ε α : Type} {x : Except ε α} {a : α} (h : x.toOption = some a) :
    x = .ok a := by
  cases x with
  | error e => cases h
  | ok b =>
    cases h
    rfl

theorem exists_of_bind_eq_ok {ε α β : Type} {x : Except ε α} {f : α → Except ε β} {b : β}
    (h : x >>= f = .ok b) : ∃ a, x = .ok a ∧ f a = .ok b := by
  cases x with
  | error e => cases h
  | ok a => exact ⟨a, rfl, h⟩

theorem bind_eq_ok_iff {ε α β : Type} {x : Except ε α} {f : α → Except ε β} {b : β} :
    x >>= f = .ok b ↔ ∃ a, x = .ok a ∧ f a = .ok b := by
  refine ⟨exists_of_bind_eq_ok, ?_⟩
  rintro ⟨a, rfl, h⟩
  exact h

theorem bind_eq_error_iff {ε α β : Type} {x : Except ε α} {f : α → Except ε β} {e : ε} :
    x >>= f = .error e ↔ x = .error e ∨ ∃ a, x = .ok a ∧ f a = .error e := by
  cases x with
  | ok a =>
    change f a = _ ↔ _
    simp
  | error fault => simp [bind, Except.bind]

theorem pure_eq_ok_iff {ε α : Type} {a b : α} : (pure a : Except ε α) = .ok b ↔ b = a := by
  simp [pure, Except.pure, eq_comm]

theorem map_eq_ok_iff {ε α β : Type} {f : α → β} {x : Except ε α} {b : β} :
    x.map f = .ok b ↔ ∃ a, x = .ok a ∧ f a = b := by
  cases x <;> simp [Except.map]

theorem mapM_eq_ok_iff {ε α β : Type} {f : α → Except ε β} {list : List α} {values : List β} :
    list.mapM f = .ok values ↔ List.Forall₂ (fun a b => f a = .ok b) list values := by
  induction list generalizing values with
  | nil => simp [pure_eq_ok_iff]
  | cons a list ih =>
    rw [List.mapM_cons, bind_eq_ok_iff]
    simp only [bind_eq_ok_iff, ih, pure_eq_ok_iff]
    constructor
    · rintro ⟨b, hb, bs, hbs, rfl⟩
      exact .cons hb hbs
    · rintro (_ | ⟨hb, hbs⟩)
      exact ⟨_, hb, _, hbs, rfl⟩

theorem forM_eq_ok_iff {ε α : Type} {f : α → Except ε Unit} {list : List α} :
    list.forM f = .ok () ↔ ∀ a ∈ list, f a = .ok () := by
  induction list with
  | nil => simp [pure_eq_ok_iff]
  | cons a list ih =>
    have hcons : (a :: list).forM f = f a >>= fun _ => list.forM f := rfl
    rw [hcons, bind_eq_ok_iff, List.forall_mem_cons, ← ih]
    exact ⟨fun ⟨_, h⟩ => h, fun h => ⟨(), h⟩⟩

/-- A fold stops at the first member that it does not get beyond. -/
theorem foldlM_eq_error_iff {ε α σ : Type} {f : σ → α → Except ε σ} {s : σ} {list : List α}
    {e : ε} :
    list.foldlM f s = .error e ↔
      ∃ before a after s', list = before ++ a :: after ∧ before.foldlM f s = .ok s' ∧
        f s' a = .error e := by
  induction list generalizing s with
  | nil =>
    refine iff_of_false nofun ?_
    rintro ⟨before, a, after, _, hnil, _⟩
    cases before <;> cases hnil
  | cons a list ih =>
    rw [List.foldlM_cons, bind_eq_error_iff]
    constructor
    · rintro (h | ⟨s', hfirst, h⟩)
      · exact ⟨[], a, list, s, rfl, rfl, h⟩
      · obtain ⟨before, b, after, s'', rfl, hbefore, hb⟩ := ih.1 h
        refine ⟨a :: before, b, after, s'', rfl, ?_, hb⟩
        rw [List.foldlM_cons, hfirst]
        exact hbefore
    · rintro ⟨before, b, after, s', heq, hbefore, hb⟩
      cases before with
      | nil =>
        cases heq
        cases hbefore
        exact .inl hb
      | cons c before =>
        obtain ⟨rfl, rfl⟩ := List.cons.inj heq
        rw [List.foldlM_cons] at hbefore
        obtain ⟨s'', hfirst, hbefore⟩ := exists_of_bind_eq_ok hbefore
        exact .inr ⟨s'', hfirst, ih.2 ⟨before, b, after, s', rfl, hbefore, hb⟩⟩

theorem exists_of_forall₂ {α β : Type} {R : α → β → Prop} {as : List α} {bs : List β}
    (h : List.Forall₂ R as bs) : ∀ a ∈ as, ∃ b ∈ bs, R a b := by
  induction h with
  | nil => simp
  | cons hfirst _ ih =>
    refine List.forall_mem_cons.2 ⟨⟨_, List.mem_cons_self, hfirst⟩, fun a ha => ?_⟩
    obtain ⟨b, hb, hab⟩ := ih a ha
    exact ⟨b, List.mem_cons_of_mem _ hb, hab⟩

theorem TokenTree.token?_eq_some {p : Token → Bool} {tree : TokenTree} {t : Token}
    (h : tree.token? p = some t) : tree = .token t ∧ p t = true := by
  cases tree with
  | group => cases h
  | token u =>
    by_cases hp : p u = true
    · rw [token?, if_pos hp] at h
      cases h
      exact ⟨rfl, hp⟩
    · rw [token?, if_neg hp] at h
      cases h

theorem TokenTree.group?_eq_some {delimiter : Delimiter} {tree : TokenTree} {g : Group}
    (h : tree.group? delimiter = some g) : g.delimiter = delimiter ∧ tree = g.tree := by
  cases tree with
  | token t => cases h
  | group d opener inner closer =>
    by_cases hd : d = delimiter
    · rw [group?, if_pos hd] at h
      cases h
      exact ⟨hd, rfl⟩
    · rw [group?, if_neg hd] at h
      cases h

theorem TokenTree.group?_tree {delimiter : Delimiter} {g : Group} (h : g.delimiter = delimiter) :
    g.tree.group? delimiter = some g := by
  subst h
  exact if_pos rfl

/-- The second cursor stands in the same list, behind the given trees. -/
structure Cursor.Takes (c : Cursor) (taken : List TokenTree) (c' : Cursor) : Prop where
  rest_eq : c.rest = taken ++ c'.rest
  past_eq : c'.past = taken.reverse ++ c.past

namespace Cursor

theorem Takes.refl (c : Cursor) : c.Takes [] c := ⟨rfl, rfl⟩

theorem Takes.trans {a b c : Cursor} {front back : List TokenTree} (h : a.Takes front b)
    (h' : b.Takes back c) : a.Takes (front ++ back) c where
  rest_eq := by rw [h.rest_eq, h'.rest_eq, List.append_assoc]
  past_eq := by rw [h'.past_eq, h.past_eq, List.reverse_append, List.append_assoc]

theorem takes_skip (c : Cursor) (n : Nat) : c.Takes (c.rest.take n) (c.skip n) :=
  ⟨(List.take_append_drop n c.rest).symm, rfl⟩

/-- From the front of a list, the cursor's position is the number of trees taken. -/
theorem Takes.position_eq {trees taken : List TokenTree} {anchor : Option Location} {c : Cursor}
    (h : (ofTrees trees anchor).Takes taken c) : c.position = taken.length := by
  rw [position, h.past_eq, ofTrees, List.append_nil, List.length_reverse]

end Cursor

namespace Reader

variable {α β : Type}

theorem bind_eq_ok {x : Reader α} {f : α → Reader β} {c c' : Cursor} {b : β}
    (h : (x >>= f) c = .ok b c') : ∃ a c₁, x c = .ok a c₁ ∧ f a c₁ = .ok b c' := by
  change EStateM.bind x f c = _ at h
  unfold EStateM.bind at h
  split at h
  · rename_i a c₁ hx
    exact ⟨a, c₁, hx, h⟩
  · cases h

/-- Where the reader succeeds it has taken the trees before the cursor. -/
def Advances (reader : Reader α) : Prop :=
  ∀ c a c', reader c = .ok a c' → ∃ taken, c.Takes taken c'

theorem advances_pure (a : α) : Advances (pure a : Reader α) := by
  intro c b c' h
  cases h
  exact ⟨[], .refl c⟩

theorem advances_bind {x : Reader α} {f : α → Reader β} (hx : Advances x)
    (hf : ∀ a, Advances (f a)) : Advances (x >>= f) := by
  intro c b c' h
  obtain ⟨a, c₁, hfirst, hsecond⟩ := bind_eq_ok h
  obtain ⟨front, hfront⟩ := hx _ _ _ hfirst
  obtain ⟨back, hback⟩ := hf a _ _ _ hsecond
  exact ⟨_, hfront.trans hback⟩

theorem advances_fail (cause : Cause) : Advances (fail cause : Reader α) := by
  intro c a c' h
  cases h

theorem advances_sees (p : TokenTree → Bool) : Advances (sees p) := by
  intro c a c' h
  cases h
  exact ⟨[], .refl c⟩

theorem takeUntil_eq_ok {p : TokenTree → Bool} {c c' : Cursor} {taken : List TokenTree}
    (h : takeUntil p c = .ok taken c') : c.Takes taken c' := by
  cases h
  have htake := List.prefix_iff_eq_take.1 (List.takeWhile_prefix (l := c.rest) fun tree => !p tree)
  have hskip := c.takes_skip (c.rest.takeWhile fun tree => !p tree).length
  rwa [← htake] at hskip

/-- Reading stops in front of a tree with the property. -/
theorem head?_of_takeUntil {p : TokenTree → Bool} {c c' : Cursor} {taken : List TokenTree}
    (h : takeUntil p c = .ok taken c') : ∀ tree ∈ c'.rest.head?, p tree = true := by
  cases h
  have hdrop : c.rest.drop (c.rest.takeWhile fun tree => !p tree).length =
      c.rest.dropWhile fun tree => !p tree := by
    have hsplit : ((c.rest.takeWhile fun tree => !p tree) ++
        c.rest.dropWhile fun tree => !p tree).drop (c.rest.takeWhile fun tree => !p tree).length =
          c.rest.dropWhile fun tree => !p tree := List.drop_left
    rwa [List.takeWhile_append_dropWhile] at hsplit
  intro tree htree
  change tree ∈ (c.rest.drop (c.rest.takeWhile fun tree => !p tree).length).head? at htree
  rw [hdrop] at htree
  have hstop := List.head?_dropWhile_not (fun tree => !p tree) c.rest
  rw [htree] at hstop
  simpa using hstop

theorem advances_takeUntil (p : TokenTree → Bool) : Advances (takeUntil p) :=
  fun _ _ _ h => ⟨_, takeUntil_eq_ok h⟩

theorem advances_eat (p : Token → Bool) : Advances (eat p) := by
  intro c a c' h
  unfold eat at h
  split at h
  · cases h
    exact ⟨[], .refl c⟩
  · cases h
    exact ⟨_, c.takes_skip 1⟩

theorem advances_eatWord (name : String) : Advances (eatWord name) :=
  advances_bind (advances_eat _) fun _ => advances_pure _

theorem ofExcept_eq_ok {result : Except Failure α} {c c' : Cursor} {a : α}
    (h : ofExcept result c = .ok a c') : result = .ok a ∧ c' = c := by
  cases result with
  | ok a =>
    cases h
    exact ⟨rfl, rfl⟩
  | error f => cases h

theorem advances_ofExcept (result : Except Failure α) : Advances (ofExcept result) := by
  intro c a c' h
  obtain ⟨_, rfl⟩ := ofExcept_eq_ok h
  exact ⟨[], .refl c'⟩

theorem advances_expectPunct (text : String) : Advances (expectPunct text) := by
  refine advances_bind (advances_eat _) fun t => ?_
  cases t with
  | none => exact advances_fail _
  | some t => exact advances_pure t

theorem expectPunct_eq_ok {text : String} {c c' : Cursor} {t : Token}
    (h : expectPunct text c = .ok t c') : t.isPunct text = true ∧ c.Takes [.token t] c' := by
  obtain ⟨found, c₁, heat, h⟩ := bind_eq_ok h
  cases found with
  | none => cases h
  | some u =>
    cases h
    unfold eatPunct eat at heat
    split at heat
    · cases heat
    · rename_i htoken
      cases heat
      obtain ⟨tree, hpeek, htoken⟩ := Option.bind_eq_some_iff.1 htoken
      obtain ⟨rfl, hpunct⟩ := TokenTree.token?_eq_some htoken
      have htake : c.rest.take 1 = [.token t] := by
        rw [Cursor.peek] at hpeek
        cases hrest : c.rest with
        | nil => simp [hrest] at hpeek
        | cons tree rest => simpa [hrest] using hpeek
      have hskip := c.takes_skip 1
      rw [htake] at hskip
      exact ⟨hpunct, hskip⟩

/-- What is taken through angle brackets ends with a closing one. -/
theorem getLast?_of_throughAngle {depth : Nat} {trees angle rest : List TokenTree}
    (h : TokenTree.throughAngle depth trees = some (angle, rest)) (hdepth : 0 < depth) :
    ∃ front last, angle = front ++ [last] ∧ last.isPunct ">" = true := by
  fun_induction TokenTree.throughAngle depth trees generalizing angle with
  | case1 => cases h
  | case2 depth tree rest hzero =>
    cases h
    refine ⟨[], tree, rfl, ?_⟩
    unfold TokenTree.angleDepth at hzero
    by_contra hclosing
    rw [if_neg hclosing] at hzero
    split at hzero <;> omega
  | case3 depth tree trees hpositive ih =>
    obtain ⟨⟨inner, tail⟩, hsplit, heq⟩ := Option.map_eq_some_iff.1 h
    cases heq
    obtain ⟨front, last, rfl, hlast⟩ := ih hsplit (Nat.pos_of_ne_zero hpositive)
    exact ⟨tree :: front, last, rfl, hlast⟩

/-- An angle list is taken from its opening bracket through its closing one. -/
theorem angleList_eq_ok {c c' : Cursor} {trees : List TokenTree}
    (h : angleList c = .ok trees c') :
    c.Takes trees c' ∧ (∀ tree ∈ trees.head?, tree.isPunct "<" = true) ∧
      ∀ tree ∈ trees.getLast?, tree.isPunct ">" = true := by
  obtain ⟨opening, c₁, hopening, h⟩ := bind_eq_ok h
  obtain ⟨hpunct, htakes⟩ := expectPunct_eq_ok hopening
  obtain ⟨_, _, hget, h⟩ := bind_eq_ok h
  cases hget
  cases hthrough : TokenTree.throughAngle 1 c₁.rest with
  | none =>
    rw [hthrough] at h
    obtain ⟨_, _, hset, h⟩ := bind_eq_ok h
    cases hset
    cases h
  | some split =>
    rw [hthrough] at h
    obtain ⟨_, _, hset, h⟩ := bind_eq_ok h
    cases hset
    cases h
    have hinner := c₁.takes_skip split.1.length
    rw [← TokenTree.throughAngle_append hthrough, List.take_left] at hinner
    obtain ⟨front, last, hfront, hlast⟩ := getLast?_of_throughAngle hthrough Nat.one_pos
    refine ⟨htakes.trans hinner, ?_, fun tree htree => ?_⟩
    · rintro tree ⟨⟩
      simpa [TokenTree.isPunct, TokenTree.isToken, TokenTree.token?] using hpunct
    · rw [hfront, ← List.cons_append, List.getLast?_concat] at htree
      cases htree
      exact hlast

theorem optionalAngleList_eq_ok {c c' : Cursor} {trees : List TokenTree}
    (h : optionalAngleList c = .ok trees c') :
    c.Takes trees c' ∧ (∀ tree ∈ trees.head?, tree.isPunct "<" = true) ∧
      ∀ tree ∈ trees.getLast?, tree.isPunct ">" = true := by
  obtain ⟨isAhead, c₁, hsees, h⟩ := bind_eq_ok h
  cases hsees
  split at h
  · exact angleList_eq_ok h
  · cases h
    exact ⟨.refl _, by simp, by simp⟩

theorem advances_optionalAngleList : Advances optionalAngleList :=
  fun _ _ _ h => ⟨_, (optionalAngleList_eq_ok h).1⟩

/-- The group that is expected is the next tree. -/
theorem expectGroup_eq_ok {delimiter : Delimiter} {c c' : Cursor} {g : Group}
    (h : expectGroup delimiter c = .ok g c') :
    g.delimiter = delimiter ∧ c.Takes [g.tree] c' := by
  unfold expectGroup at h
  split at h
  · cases h
  · rename_i hgroup
    cases h
    obtain ⟨tree, hpeek, hgroup⟩ := Option.bind_eq_some_iff.1 hgroup
    obtain ⟨hd, rfl⟩ := TokenTree.group?_eq_some hgroup
    have htake : c.rest.take 1 = [g.tree] := by
      rw [Cursor.peek] at hpeek
      cases hrest : c.rest with
      | nil => simp [hrest] at hpeek
      | cons tree rest => simpa [hrest] using hpeek
    have hskip := c.takes_skip 1
    rw [htake] at hskip
    exact ⟨hd, hskip⟩

end Reader
end LuaBindings
