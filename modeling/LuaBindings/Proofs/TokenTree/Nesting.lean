import LuaBindings.TokenTree.Reading
import Mathlib.Tactic.Common

/-!
# Well nested tokens and their trees

Tokens have trees exactly when their delimiters are well nested, and then the trees are
those whose tokens they are (`ofTokens_eq_ok_iff`). Otherwise reading fails at the first
closer that does not fit, or at the last token where a group is left open
(`ofTokens_eq_error`).
-/

set_option autoImplicit false

namespace LuaBindings

def TokenKind.isDelimiter : TokenKind → Bool
  | .opener _ | .closer _ => true
  | _ => false

theorem TokenKind.isDelimiter_eq_false {kind : TokenKind} (hopen : ∀ d, kind = .opener d → False)
    (hclose : ∀ d, kind = .closer d → False) : kind.isDelimiter = false := by
  cases kind with
  | opener d => exact absurd rfl (hopen d)
  | closer d => exact absurd rfl (hclose d)
  | _ => rfl

/-- Every closer closes the group of its kind that was opened last, and no group is left
open. -/
inductive WellNested : List Token → Prop
  | nil : WellNested []
  | plain {t : Token} {rest : List Token} : t.kind.isDelimiter = false → WellNested rest →
    WellNested (t :: rest)
  | group {d : Delimiter} {opener closer : Token} {inner rest : List Token} :
    opener.kind = .opener d → WellNested inner → closer.kind = .closer d → WellNested rest →
    WellNested (opener :: (inner ++ closer :: rest))

/-- Every closer closes the group of its kind that was opened last, and the given groups
are left open, innermost first. -/
inductive Unclosed : List Delimiter → List Token → Prop
  | nil {tokens : List Token} : WellNested tokens → Unclosed [] tokens
  | cons {d : Delimiter} {pending : List Delimiter} {before inner : List Token} {opener : Token} :
    Unclosed pending before → opener.kind = .opener d → WellNested inner →
    Unclosed (d :: pending) (before ++ opener :: inner)

namespace TokenTree

/-- Groups stand between an opener and a closer of their kind, and no delimiter stands
outside of these places. -/
inductive Formed : List TokenTree → Prop
  | nil : Formed []
  | token {t : Token} {rest : List TokenTree} : t.kind.isDelimiter = false → Formed rest →
    Formed (.token t :: rest)
  | group {d : Delimiter} {opener closer : Token} {inner rest : List TokenTree} :
    opener.kind = .opener d → Formed inner → closer.kind = .closer d → Formed rest →
    Formed (.group d opener inner closer :: rest)

@[simp] theorem flatten_nil : flatten [] = [] := by
  simp [flatten]

@[simp] theorem flatten_token_cons (t : Token) (rest : List TokenTree) :
    flatten (.token t :: rest) = t :: flatten rest := by
  simp [flatten, tokens]

@[simp] theorem flatten_group_cons (d : Delimiter) (opener closer : Token)
    (inner rest : List TokenTree) :
    flatten (.group d opener inner closer :: rest) =
      opener :: (flatten inner ++ closer :: flatten rest) := by
  simp [flatten, tokens]

theorem Formed.append {xs ys : List TokenTree} (hx : Formed xs) (hy : Formed ys) :
    Formed (xs ++ ys) := by
  induction hx with
  | nil => exact hy
  | token hplain _ ih => exact .token hplain ih
  | group hopen hinner hclose _ _ ih => exact .group hopen hinner hclose ih

theorem Formed.of_append {xs ys : List TokenTree} (h : Formed (xs ++ ys)) :
    Formed xs ∧ Formed ys := by
  induction xs with
  | nil => exact ⟨.nil, h⟩
  | cons x xs ih =>
    cases h with
    | token hplain hrest => exact ⟨.token hplain (ih hrest).1, (ih hrest).2⟩
    | group hopen hinner hclose hrest =>
      exact ⟨.group hopen hinner hclose (ih hrest).1, (ih hrest).2⟩

theorem Formed.of_part {xs ys : List TokenTree} (h : Formed ys) (hxs : xs <:+: ys) :
    Formed xs := by
  obtain ⟨before, after, rfl⟩ := hxs
  exact h.of_append.1.of_append.2

theorem Formed.of_group {d : Delimiter} {opener closer : Token} {inner rest : List TokenTree}
    (h : Formed (.group d opener inner closer :: rest)) :
    Formed inner ∧ closer.kind = .closer d := by
  cases h with
  | group _ hinner hclose _ => exact ⟨hinner, hclose⟩

theorem Formed.wellNested {trees : List TokenTree} (h : Formed trees) :
    WellNested (flatten trees) := by
  induction h with
  | nil =>
    rw [flatten_nil]
    exact .nil
  | token hplain _ ih =>
    rw [flatten_token_cons]
    exact .plain hplain ih
  | group hopen _ hclose _ ihinner ihrest =>
    rw [flatten_group_cons]
    exact .group hopen ihinner hclose ihrest

theorem exists_formed {tokens : List Token} (h : WellNested tokens) :
    ∃ trees, Formed trees ∧ flatten trees = tokens := by
  induction h with
  | nil => exact ⟨[], .nil, flatten_nil⟩
  | @plain t rest hplain _ ih =>
    obtain ⟨trees, hformed, rfl⟩ := ih
    exact ⟨_, .token hplain hformed, flatten_token_cons t trees⟩
  | @group d opener closer inner rest hopen _ hclose _ ihinner ihrest =>
    obtain ⟨inner, hinner, rfl⟩ := ihinner
    obtain ⟨trees, hformed, rfl⟩ := ihrest
    exact ⟨_, .group hopen hinner hclose hformed, flatten_group_cons d opener closer inner trees⟩

/-! ### One token at a time -/

section
variable {groups : List OpenGroup} {done : List TokenTree} {last : Location} {t : Token}
  {d : Delimiter} {rest : List Token}

theorem build_opener (h : t.kind = .opener d) : build groups done last (t :: rest) =
    build (⟨d, t, done⟩ :: groups) [] t.start rest := by
  rw [build]
  simp only [h]

theorem build_closer {g : OpenGroup} (h : t.kind = .closer g.delimiter) :
    build (g :: groups) done last (t :: rest) =
      build groups (group g.delimiter g.opener done.reverse t :: g.before) t.start rest := by
  rw [build]
  simp only [h, if_true]

theorem build_plain (h : t.kind.isDelimiter = false) :
    build groups done last (t :: rest) = build groups (token t :: done) t.start rest := by
  rw [build]
  split
  · rename_i hkind
    rw [hkind] at h
    cases h
  · rename_i hkind
    rw [hkind] at h
    cases h
  · rfl

/-- Trees are read off the tokens that they consist of. -/
theorem Formed.build_eq {trees : List TokenTree} (h : Formed trees) (groups : List OpenGroup)
    (done : List TokenTree) (last : Location) (rest : List Token) :
    ∃ last', build groups done last (flatten trees ++ rest) =
      build groups (trees.reverse ++ done) last' rest := by
  induction h generalizing groups done last rest with
  | nil => exact ⟨last, by rw [flatten_nil]; rfl⟩
  | @token t trees hplain _ ih =>
    obtain ⟨last', hrest⟩ := ih groups (.token t :: done) t.start rest
    refine ⟨last', ?_⟩
    rw [flatten_token_cons, List.cons_append, build_plain hplain, hrest, List.reverse_cons,
      List.append_assoc]
    rfl
  | @group d opener closer inner trees hopen _ hclose _ ihinner ihrest =>
    obtain ⟨last₁, hinner⟩ := ihinner (⟨d, opener, done⟩ :: groups) [] opener.start
      (closer :: (flatten trees ++ rest))
    obtain ⟨last₂, hrest⟩ := ihrest groups (.group d opener inner closer :: done) closer.start rest
    refine ⟨last₂, ?_⟩
    rw [flatten_group_cons, List.cons_append, build_opener hopen, List.append_assoc,
      List.cons_append, hinner, build_closer hclose, List.append_nil, List.reverse_reverse, hrest,
      List.reverse_cons, List.append_assoc]
    rfl

end

/-! ### What has been read -/

/-- The tokens that the groups and trees of a state have been read from. -/
def contents : List OpenGroup → List TokenTree → List Token
  | [], done => flatten done.reverse
  | g :: groups, done => contents groups g.before ++ g.opener :: flatten done.reverse

/-- The trees of a state are formed, and every group of it waits behind its opener. -/
inductive Standing : List OpenGroup → List TokenTree → Prop
  | nil {done : List TokenTree} : Formed done.reverse → Standing [] done
  | cons {g : OpenGroup} {groups : List OpenGroup} {done : List TokenTree} :
    g.opener.kind = .opener g.delimiter → Standing groups g.before → Formed done.reverse →
    Standing (g :: groups) done

theorem standing_nil : Standing [] [] := .nil .nil

section
variable {groups : List OpenGroup} {done : List TokenTree}

theorem Standing.formed (h : Standing groups done) : Formed done.reverse := by
  cases h with
  | nil hdone => exact hdone
  | cons _ _ hdone => exact hdone

/-- One more tree behind the trees of a state. -/
theorem Standing.push {tree : TokenTree} (h : Standing groups done) (htree : Formed [tree]) :
    Standing groups (tree :: done) := by
  have hdone : Formed (tree :: done).reverse := by
    rw [List.reverse_cons]
    exact h.formed.append htree
  cases h with
  | nil _ => exact .nil hdone
  | cons hopen hbefore _ => exact .cons hopen hbefore hdone

theorem contents_push (groups : List OpenGroup) (tree : TokenTree) (done : List TokenTree) :
    contents groups (tree :: done) = contents groups done ++ tree.tokens := by
  have hflatten : flatten (tree :: done).reverse = flatten done.reverse ++ tree.tokens := by
    rw [List.reverse_cons, flatten_append]
    simp [flatten]
  cases groups with
  | nil => exact hflatten
  | cons g groups =>
    rw [contents, contents, hflatten]
    simp

theorem Standing.unclosed (h : Standing groups done) :
    Unclosed (groups.map OpenGroup.delimiter) (contents groups done) := by
  induction h with
  | nil hdone => exact .nil hdone.wellNested
  | cons hopen _ hdone ih => exact .cons ih hopen hdone.wellNested

/-! Every token that is read comes behind the tokens read before. -/

theorem Standing.opened {t : Token} {d : Delimiter} (h : Standing groups done)
    (hopen : t.kind = .opener d) : Standing (⟨d, t, done⟩ :: groups) [] :=
  .cons hopen h .nil

theorem contents_opened (t : Token) (d : Delimiter) :
    contents (⟨d, t, done⟩ :: groups) [] = contents groups done ++ [t] := by
  simp [contents]

theorem Standing.closed {g : OpenGroup} {t : Token} (h : Standing (g :: groups) done)
    (hclose : t.kind = .closer g.delimiter) :
    Standing groups (group g.delimiter g.opener done.reverse t :: g.before) := by
  cases h with
  | cons hopen hbefore hdone => exact hbefore.push (.group hopen hdone hclose .nil)

theorem contents_closed (g : OpenGroup) (t : Token) :
    contents groups (group g.delimiter g.opener done.reverse t :: g.before) =
      contents (g :: groups) done ++ [t] := by
  rw [contents_push, contents, tokens]
  simp

theorem Standing.plain {t : Token} (h : Standing groups done)
    (hplain : t.kind.isDelimiter = false) : Standing groups (token t :: done) :=
  h.push (.token hplain .nil)

theorem contents_plain (t : Token) :
    contents groups (token t :: done) = contents groups done ++ [t] := by
  rw [contents_push, tokens]

/-- What is read is the trees of the tokens. -/
theorem Standing.of_build_ok {last : Location} {rest : List Token} {trees : List TokenTree}
    (hs : Standing groups done) (h : build groups done last rest = .ok trees) :
    Formed trees ∧ flatten trees = contents groups done ++ rest := by
  fun_induction build groups done last rest with
  | case1 groups done last hempty =>
    cases h
    rw [List.isEmpty_iff.1 hempty, contents, List.append_nil]
    exact ⟨hs.formed, rfl⟩
  | case2 => cases h
  | case3 groups done last t rest d hkind ih =>
    have hread := ih (hs.opened hkind) h
    rwa [contents_opened, List.append_assoc] at hread
  | case4 done last t rest g groups hkind ih =>
    have hread := ih (hs.closed hkind) h
    rwa [contents_closed, List.append_assoc] at hread
  | case5 => cases h
  | case6 => cases h
  | case7 groups done last t rest hopen hclose ih =>
    have hread := ih (hs.plain (TokenKind.isDelimiter_eq_false hopen hclose)) h
    rwa [contents_plain, List.append_assoc] at hread

/-- The failures of tokens that are not well nested: at the first closer that does not
close the group opened last, or at the last token if a group is still open behind it. -/
inductive NestingFault : List Token → Diagnostic → Prop
  | unexpected {d : Delimiter} {pending : List Delimiter} {before after : List Token} {t : Token} :
    Unclosed pending before → t.kind = .closer d → pending.head? ≠ some d →
    NestingFault (before ++ t :: after)
      (.atPlace t.start (.untokenizable (.unexpectedCloser d) t.start))
  | openAtEnd {d : Delimiter} {pending : List Delimiter} {tokens : List Token} {t : Token} :
    Unclosed (d :: pending) tokens → tokens.getLast? = some t →
    NestingFault tokens (.atPlace t.start (.untokenizable .openAtEnd t.start))

theorem Standing.of_build_error {last : Location} {rest : List Token} {e : Diagnostic}
    (hs : Standing groups done)
    (hlast : ∀ t, (contents groups done).getLast? = some t → t.start = last)
    (h : build groups done last rest = .error e) :
    NestingFault (contents groups done ++ rest) e := by
  have hnew : ∀ (before : List Token) (t u : Token),
      (before ++ [t]).getLast? = some u → u.start = t.start := by
    intro before t u hu
    rw [List.getLast?_concat] at hu
    rw [Option.some.inj hu]
  fun_induction build groups done last rest with
  | case1 => cases h
  | case2 groups done last hopen =>
    cases h
    have hunclosed := hs.unclosed
    cases groups with
    | nil => exact absurd rfl hopen
    | cons g groups =>
      have hne : contents (g :: groups) done ≠ [] := by simp [contents]
      have hend := List.getLast?_eq_some_getLast hne
      rw [List.append_nil, ← hlast _ hend]
      exact .openAtEnd hunclosed hend
  | case3 groups done last t rest d hkind ih =>
    have hread := ih (hs.opened hkind) (by rw [contents_opened]; exact hnew _ _) h
    rwa [contents_opened, List.append_assoc] at hread
  | case4 done last t rest g groups hkind ih =>
    have hread := ih (hs.closed hkind) (by rw [contents_closed]; exact hnew _ _) h
    rwa [contents_closed, List.append_assoc] at hread
  | case5 done last t rest d hkind g groups hne =>
    cases h
    exact .unexpected hs.unclosed hkind (by simpa using hne)
  | case6 done last t rest d hkind =>
    cases h
    exact .unexpected hs.unclosed hkind nofun
  | case7 groups done last t rest hopen hclose ih =>
    have hplain := TokenKind.isDelimiter_eq_false hopen hclose
    have hread := ih (hs.plain hplain) (by rw [contents_plain]; exact hnew _ _) h
    rwa [contents_plain, List.append_assoc] at hread

end

/-! ### Tokens and their trees -/

theorem ofTokens_eq_ok_iff {tokens : List Token} {trees : List TokenTree} :
    ofTokens tokens = .ok trees ↔ Formed trees ∧ flatten trees = tokens := by
  constructor
  · intro h
    have hread := standing_nil.of_build_ok h
    rwa [contents, List.reverse_nil, flatten_nil] at hread
  · rintro ⟨hformed, rfl⟩
    obtain ⟨last, hread⟩ := hformed.build_eq [] [] .first []
    rw [List.append_nil, List.append_nil] at hread
    rw [ofTokens, hread, build, List.reverse_reverse]
    rfl

theorem exists_ofTokens_iff {tokens : List Token} :
    (∃ trees, ofTokens tokens = .ok trees) ↔ WellNested tokens := by
  constructor
  · rintro ⟨trees, h⟩
    obtain ⟨hformed, rfl⟩ := ofTokens_eq_ok_iff.1 h
    exact hformed.wellNested
  · intro h
    obtain ⟨trees, hformed, hflatten⟩ := exists_formed h
    exact ⟨trees, ofTokens_eq_ok_iff.2 ⟨hformed, hflatten⟩⟩

theorem ofTokens_eq_error {tokens : List Token} {e : Diagnostic}
    (h : ofTokens tokens = .error e) : NestingFault tokens e := by
  have hread := standing_nil.of_build_error (by simp [contents]) h
  rwa [contents, List.reverse_nil, flatten_nil] at hread

/-! ### Lists of siblings -/

theorem infix_flatten {xs ys : List TokenTree} (h : xs <:+: ys) : flatten xs <:+: flatten ys := by
  obtain ⟨before, after, rfl⟩ := h
  rw [flatten_append, flatten_append]
  exact ⟨_, _, rfl⟩

/-- Lists of siblings: the given trees, and what stands inside of a group in such a list
whose delimiter is one of those entered. -/
inductive Level (enters : Delimiter → Prop) (whole : List TokenTree) : List TokenTree → Prop
  | top : Level enters whole whole
  | inside {front rest : List TokenTree} {g : Group} :
    Level enters whole (front ++ g.tree :: rest) → enters g.delimiter → Level enters whole g.inner

section
variable {enters : Delimiter → Prop} {whole siblings : List TokenTree}

theorem Level.formed (h : Level enters whole siblings) (hformed : Formed whole) :
    Formed siblings := by
  induction h with
  | top => exact hformed
  | inside _ _ ih => exact ih.of_append.2.of_group.1

/-- Siblings consist of neighbouring tokens. -/
theorem Level.infix_flatten (h : Level enters whole siblings) :
    flatten siblings <:+: flatten whole := by
  induction h with
  | top => exact List.infix_refl _
  | @inside front rest g _ _ ih =>
    refine List.IsInfix.trans ?_ ih
    refine ⟨flatten front ++ [g.opener], g.closer :: flatten rest, ?_⟩
    rw [flatten_append, Group.tree, flatten_group_cons]
    simp

end

end TokenTree
end LuaBindings
