import LuaBindings.Proofs.Declaration.TypePlaces
import LuaBindings.Proofs.TokenTree.Writing

/-!
# Plain types

References, paths and tuples all the way down. Such a type is read from names, lifetimes,
parentheses and a few marks only, so what its text stands next to does not change its
tokens (`RustType.local_of_ofTrees`).
-/

set_option autoImplicit false

namespace LuaBindings

mutual

inductive RustType.Plain : RustType → Prop
  | reference {trees : List TokenTree} {lifetime : Option String} {isMut : Bool}
    {elem : RustType} (h : RustType.Plain elem) :
    RustType.Plain (.reference trees lifetime isMut elem)
  | path {trees : List TokenTree} {leadingColon : Bool} {qualifiers : List PathSegment}
    {last : PathSegment}
    (h : ∀ segment ∈ qualifiers ++ [last], ∀ arg ∈ segment.args, TypeArg.Plain arg) :
    RustType.Plain (.path trees leadingColon qualifiers last)
  | tuple {trees : List TokenTree} {elems : List RustType}
    (h : ∀ elem ∈ elems, RustType.Plain elem) : RustType.Plain (.tuple trees elems)

inductive TypeArg.Plain : TypeArg → Prop
  | lifetime (name : String) : TypeArg.Plain (.lifetime name)
  | type {t : RustType} (h : RustType.Plain t) : TypeArg.Plain (.type t)

end

namespace RustType

/-! ### Deciding whether a type is plain -/

mutual

def isPlain : RustType → Bool
  | .reference _ _ _ elem => isPlain elem
  | .path _ _ qualifiers (.mk _ args) => arePlainSegments qualifiers && arePlainArgs args
  | .tuple _ elems => arePlain elems
  | .other _ => false

def arePlain : List RustType → Bool
  | [] => true
  | t :: types => isPlain t && arePlain types

def arePlainSegments : List PathSegment → Bool
  | [] => true
  | .mk _ args :: segments => arePlainArgs args && arePlainSegments segments

def arePlainArgs : List TypeArg → Bool
  | [] => true
  | .lifetime _ :: args => arePlainArgs args
  | .type t :: args => isPlain t && arePlainArgs args

end

theorem plain_reference_iff {trees : List TokenTree} {lifetime : Option String} {isMut : Bool}
    {elem : RustType} : (reference trees lifetime isMut elem).Plain ↔ elem.Plain := by
  refine ⟨fun h => ?_, .reference⟩
  cases h with
  | reference h => exact h

theorem plain_path_iff {trees : List TokenTree} {leadingColon : Bool}
    {qualifiers : List PathSegment} {last : PathSegment} :
    (path trees leadingColon qualifiers last).Plain ↔
      (∀ segment ∈ qualifiers, ∀ arg ∈ segment.args, arg.Plain) ∧ ∀ arg ∈ last.args, arg.Plain := by
  rw [← List.forall_mem_singleton
      (p := fun segment : PathSegment => ∀ arg ∈ segment.args, arg.Plain),
    ← List.forall_mem_append]
  refine ⟨fun h => ?_, .path⟩
  cases h with
  | path h => exact h

theorem plain_tuple_iff {trees : List TokenTree} {elems : List RustType} :
    (tuple trees elems).Plain ↔ ∀ elem ∈ elems, elem.Plain := by
  refine ⟨fun h => ?_, .tuple⟩
  cases h with
  | tuple h => exact h

theorem plain_type_iff {t : RustType} : (TypeArg.type t).Plain ↔ t.Plain := by
  refine ⟨fun h => ?_, .type⟩
  cases h with
  | type h => exact h

mutual

theorem isPlain_iff : ∀ t : RustType, t.isPlain = true ↔ t.Plain
  | .reference _ _ _ elem => by
    rw [isPlain, isPlain_iff elem, plain_reference_iff]
  | .path _ _ qualifiers (.mk _ args) => by
    rw [isPlain, Bool.and_eq_true, arePlainSegments_iff qualifiers, arePlainArgs_iff args,
      plain_path_iff, PathSegment.args]
  | .tuple _ elems => by
    rw [isPlain, arePlain_iff elems, plain_tuple_iff]
  | .other _ => by
    rw [isPlain]
    exact iff_of_false Bool.false_ne_true nofun

theorem arePlain_iff : ∀ types : List RustType, arePlain types = true ↔ ∀ t ∈ types, t.Plain
  | [] => by simp [arePlain]
  | t :: types => by
    rw [arePlain, Bool.and_eq_true, isPlain_iff t, arePlain_iff types, List.forall_mem_cons]

theorem arePlainSegments_iff : ∀ segments : List PathSegment, arePlainSegments segments = true ↔
    ∀ segment ∈ segments, ∀ arg ∈ segment.args, arg.Plain
  | [] => by simp [arePlainSegments]
  | .mk _ args :: segments => by
    rw [arePlainSegments, Bool.and_eq_true, arePlainArgs_iff args, arePlainSegments_iff segments,
      List.forall_mem_cons, PathSegment.args]

theorem arePlainArgs_iff : ∀ args : List TypeArg, arePlainArgs args = true ↔
    ∀ arg ∈ args, arg.Plain
  | [] => by simp [arePlainArgs]
  | .lifetime name :: args => by
    rw [arePlainArgs, arePlainArgs_iff args, List.forall_mem_cons]
    exact (and_iff_right (.lifetime name)).symm
  | .type t :: args => by
    rw [arePlainArgs, Bool.and_eq_true, isPlain_iff t, arePlainArgs_iff args, List.forall_mem_cons,
      plain_type_iff]

end

instance (t : RustType) : Decidable t.Plain := decidable_of_iff _ (isPlain_iff t)

end RustType

namespace TokenTree

variable {xs ys : List TokenTree} {tree : TokenTree} {t : Token}

theorem local_nil : Local [] := by simp [Local]

theorem local_append : Local (xs ++ ys) ↔ Local xs ∧ Local ys := by
  simp [Local, flatten_append, or_imp, forall_and]

theorem local_cons : Local (tree :: xs) ↔ Local [tree] ∧ Local xs :=
  @local_append [tree] xs

theorem local_token : Local [.token t] ↔ Terminal.isLocal t.bare = true := by
  simp [Local]

theorem local_of_forall (h : ∀ tree ∈ xs, Local [tree]) : Local xs := by
  induction xs with
  | nil => exact local_nil
  | cons tree xs ih =>
    rw [local_cons]
    exact ⟨h tree List.mem_cons_self, ih fun t ht => h t (List.mem_cons_of_mem _ ht)⟩

theorem local_of_mem (h : Local xs) (htree : tree ∈ xs) : Local [tree] := by
  obtain ⟨front, back, rfl⟩ := List.append_of_mem htree
  exact (local_cons.1 (local_append.1 h).2).1

theorem local_ident (h : t.kind = .ident) : Local [.token t] := by
  rw [local_token, Terminal.isLocal, Token.bare, h]

theorem local_lifetime (h : t.kind = .lifetime) : Local [.token t] := by
  rw [local_token, Terminal.isLocal, Token.bare, h]

/-- A mark that is neither a slash nor a hash sign. -/
theorem local_punct {text : String} (h : tree.isPunct text = true) (hslash : text ≠ "/")
    (hhash : text ≠ "#") : Local [tree] := by
  obtain ⟨t, rfl, hkind, rfl⟩ := isPunct_iff.1 h
  simp [local_token, Terminal.isLocal, Token.bare, hkind, hslash, hhash]

theorem Formed.of_subset (h : Formed ys) (hsub : xs ⊆ ys) : Formed xs := by
  induction xs with
  | nil => exact .nil
  | cons tree xs ih =>
    obtain ⟨front, back, rfl⟩ := List.append_of_mem (hsub List.mem_cons_self)
    have htree : Formed [tree] := h.of_part ⟨front, back, by simp⟩
    exact htree.append (ih (List.subset_of_cons_subset hsub))

/-- A group of well nested trees is as its inside. -/
theorem local_group {g : Group} (hformed : Formed [g.tree]) (h : Local g.inner) :
    Local [g.tree] := by
  obtain ⟨d, opener, inner, closer⟩ := g
  cases hformed with
  | group hopen _ hclose _ =>
    have hopener : Terminal.isLocal opener.bare = true := by
      rw [Terminal.isLocal, Token.bare, hopen]
    have hcloser : Terminal.isLocal closer.bare = true := by
      rw [Terminal.isLocal, Token.bare, hclose]
    intro t ht
    rw [Group.tree, flatten_group_cons, flatten_nil] at ht
    simp only [List.mem_cons, List.mem_append, List.not_mem_nil, or_false] at ht
    rcases ht with rfl | ht | rfl
    · exact hopener
    · exact h t ht
    · exact hcloser

theorem mem_commaChunks (depth : Nat) (h : tree ∈ xs) : tree.isPunct "," = true ∨
    ∃ chunk ∈ (commaChunks depth xs).1 :: (commaChunks depth xs).2, tree ∈ chunk := by
  fun_induction commaChunks depth xs with
  | case1 => cases h
  | case2 depth first rest hcomma chunk chunks heq ih =>
    rw [heq] at ih
    rcases List.mem_cons.1 h with rfl | h
    · exact .inl hcomma.1
    · rcases ih h with hcomma | ⟨chunk', hchunk, hmem⟩
      · exact .inl hcomma
      · exact .inr ⟨chunk', List.mem_cons_of_mem _ hchunk, hmem⟩
  | case3 depth first rest _ chunk chunks heq ih =>
    rw [heq] at ih
    rcases List.mem_cons.1 h with rfl | h
    · exact .inr ⟨_, List.mem_cons_self, List.mem_cons_self⟩
    · rcases ih h with hcomma | ⟨chunk', hchunk, hmem⟩
      · exact .inl hcomma
      · rcases List.mem_cons.1 hchunk with rfl | hchunk
        · exact .inr ⟨_, List.mem_cons_self, List.mem_cons_of_mem _ hmem⟩
        · exact .inr ⟨chunk', List.mem_cons_of_mem _ hchunk, hmem⟩

theorem mem_dropEmptyLast {chunk : List TokenTree} {chunks : List (List TokenTree)}
    (h : chunk ∈ chunks) (hne : chunk ≠ []) : chunk ∈ dropEmptyLast chunks := by
  unfold dropEmptyLast
  split
  · rename_i hlast
    obtain ⟨front, rfl⟩ := List.getLast?_eq_some_iff.1 hlast
    rw [List.dropLast_concat]
    simpa [hne] using h
  · exact h

/-- A tree of a list is a comma or stands in one of the chunks. -/
theorem mem_splitCommas_or_comma (h : tree ∈ xs) :
    tree.isPunct "," = true ∨ ∃ chunk ∈ splitCommas xs, tree ∈ chunk :=
  (mem_commaChunks 0 h).imp_right fun ⟨chunk, hchunk, hmem⟩ =>
    ⟨chunk, mem_dropEmptyLast hchunk (List.ne_nil_of_mem hmem), hmem⟩

theorem local_of_splitCommas (h : ∀ chunk ∈ splitCommas xs, Local chunk) : Local xs := by
  refine local_of_forall fun tree htree => ?_
  rcases mem_splitCommas_or_comma htree with hcomma | ⟨chunk, hchunk, hmem⟩
  · exact local_punct hcomma (by decide) (by decide)
  · exact local_of_mem (h chunk hchunk) hmem

end TokenTree

namespace RustType

open TokenTree

variable {trees : List TokenTree}

/-! ### What stands before a type -/

theorem leadingLifetime_cases (trees : List TokenTree) :
    (leadingLifetime trees).2 = trees ∨
      ∃ t, t.kind = .lifetime ∧ trees = .token t :: (leadingLifetime trees).2 := by
  unfold leadingLifetime
  split
  · rename_i t hlifetime
    obtain ⟨tree, hhead, htoken⟩ := Option.bind_eq_some_iff.1 hlifetime
    obtain ⟨rfl, hkind⟩ := token?_eq_some htoken
    cases trees with
    | nil => cases hhead
    | cons first rest =>
      cases hhead
      exact .inr ⟨t, beq_iff_eq.1 hkind, rfl⟩
  · exact .inl rfl

theorem leadingToken_cases (p : TokenTree → Bool) (trees : List TokenTree) :
    (leadingToken p trees).2 = trees ∨
      ∃ tree, p tree = true ∧ trees = tree :: (leadingToken p trees).2 := by
  unfold leadingToken
  split
  · rename_i hhead
    cases trees with
    | nil => cases hhead
    | cons first rest => exact .inr ⟨first, hhead, rfl⟩
  · exact .inl rfl

theorem local_leadingLifetime (h : Local (leadingLifetime trees).2) : Local trees := by
  rcases leadingLifetime_cases trees with heq | ⟨t, hkind, heq⟩
  · rwa [heq] at h
  · rw [heq, local_cons]
    exact ⟨local_lifetime hkind, h⟩

theorem local_leadingToken {p : TokenTree → Bool} (hp : ∀ tree, p tree = true → Local [tree])
    (h : Local (leadingToken p trees).2) : Local trees := by
  rcases leadingToken_cases p trees with heq | ⟨tree, htree, heq⟩
  · rwa [heq] at h
  · rw [heq, local_cons]
    exact ⟨hp tree htree, h⟩

theorem local_word {tree : TokenTree} {name : String} (h : tree.isIdent name = true) :
    Local [tree] := by
  obtain ⟨t, htoken⟩ := Option.isSome_iff_exists.1 h
  obtain ⟨rfl, ht⟩ := token?_eq_some htoken
  exact local_ident (Token.Word.kind_eq ⟨t, ht⟩)

theorem local_colons {tree : TokenTree} (h : tree.isPunct "::" = true) : Local [tree] :=
  local_punct h (by decide) (by decide)

/-! ### Paths -/

/-- An angle list ends with the bracket that closes it. -/
theorem exists_closing {depth : Nat} {angle rest : List TokenTree}
    (h : throughAngle (depth + 1) trees = some (angle, rest)) :
    ∃ inner closing, angle = inner ++ [closing] ∧ closing.isPunct ">" = true := by
  induction trees generalizing depth angle with
  | nil => cases h
  | cons tree trees ih =>
    rw [throughAngle] at h
    split at h
    · rename_i hzero
      cases h
      refine ⟨[], tree, rfl, ?_⟩
      by_contra hclose
      rw [angleDepth, if_neg hclose] at hzero
      split at hzero <;> cases hzero
    · rename_i hdepth
      obtain ⟨split, hsplit, heq⟩ := Option.map_eq_some_iff.1 h
      cases heq
      obtain ⟨n, hn⟩ := Nat.exists_eq_succ_of_ne_zero hdepth
      rw [hn] at hsplit
      obtain ⟨inner, closing, hangle, hclose⟩ := ih hsplit
      exact ⟨tree :: inner, closing, by rw [hangle]; rfl, hclose⟩

theorem local_leadingAngle {angle rest : List TokenTree}
    (h : leadingAngle trees = some (angle, rest)) (hinner : Local (angleInner angle)) :
    Local angle := by
  cases trees with
  | nil =>
    cases h
    exact local_nil
  | cons tree trees =>
    rw [leadingAngle] at h
    split at h
    · rename_i hopen
      obtain ⟨split, hsplit, heq⟩ := Option.map_eq_some_iff.1 h
      cases heq
      obtain ⟨inner, closing, hangle, hclose⟩ := exists_closing hsplit
      rw [hangle, angleInner_brackets] at hinner
      rw [hangle, local_cons, local_append]
      exact ⟨local_punct hopen (by decide) (by decide), hinner,
        local_punct hclose (by decide) (by decide)⟩
    · cases h
      exact local_nil

theorem local_skipTurbofish (h : Local (skipTurbofish trees)) : Local trees := by
  rcases skipTurbofish_cases trees with heq | ⟨colons, hcolons, heq⟩
  · rwa [heq] at h
  · rw [heq, local_cons]
    exact ⟨local_colons hcolons, h⟩

/-- A path consists of names, double colons and its angle lists. -/
theorem local_pathParts (h : (pathParts trees).2 = .complete [])
    (hparts : ∀ part ∈ (pathParts trees).1, Local (angleInner part.angle)) : Local trees := by
  have hname {tree : TokenTree} {name : Token}
      (h : tree.token? (·.kind == .ident) = some name) : Local [tree] := by
    obtain ⟨rfl, hkind⟩ := token?_eq_some h
    exact local_ident (beq_iff_eq.1 hkind)
  fun_induction pathParts trees with
  | case1 => cases h
  | case2 => cases h
  | case3 => cases h
  | case4 tree rest name hident angle hangle =>
    have happ := leadingAngle_append hangle
    rw [List.append_nil] at happ
    rw [local_cons]
    refine ⟨hname hident, local_skipTurbofish ?_⟩
    rw [← happ]
    exact local_leadingAngle hangle (hparts _ List.mem_cons_self)
  | case5 tree rest name hident angle next rest' hangle hcolons _ parts ending heq ih =>
    rw [heq] at ih
    obtain ⟨hfirst, hothers⟩ := List.forall_mem_cons.1 hparts
    rw [local_cons]
    refine ⟨hname hident, local_skipTurbofish ?_⟩
    rw [← leadingAngle_append hangle, local_append, local_cons]
    exact ⟨local_leadingAngle hangle hfirst, local_colons hcolons, ih h hothers⟩
  | case6 => cases h

/-! ### Types -/

theorem local_onlyLifetime {chunk : List TokenTree} {name : String}
    (h : onlyLifetime? chunk = some name) : Local chunk := by
  cases chunk with
  | nil => cases h
  | cons tree rest =>
    cases rest with
    | cons _ _ => cases h
    | nil =>
      obtain ⟨t, htoken, -⟩ := Option.map_eq_some_iff.1 h
      obtain ⟨rfl, hkind⟩ := token?_eq_some htoken
      exact local_lifetime (beq_iff_eq.1 hkind)

theorem local_argOf {anchor : Option Location} {chunk : List TokenTree} {arg : TypeArg}
    (h : argOf anchor chunk = .ok arg) (hplain : TypeArg.Plain arg)
    (htype : ∀ t, ofTrees chunk anchor = .ok t → t.Plain → Local chunk) : Local chunk := by
  unfold argOf plainArg? at h
  cases honly : onlyLifetime? chunk with
  | some name => exact local_onlyLifetime honly
  | none =>
    rw [honly] at h
    dsimp only at h
    by_cases hbound : chunk.any (·.isPunct "=") = true
    · rw [if_pos hbound] at h
      cases h
      cases hplain with
      | type h => cases h
    · rw [if_neg hbound] at h
      obtain ⟨t, ht, rfl⟩ := map_eq_ok_iff.1 h
      cases hplain with
      | type hplain => exact htype t ht hplain

theorem local_segmentOf {part : PathPart} {segment : PathSegment}
    (h : segmentOf part = .ok segment) (hplain : ∀ arg ∈ segment.args, TypeArg.Plain arg)
    (htype : ∀ chunk ∈ splitCommas (angleInner part.angle), ∀ t,
      ofTrees chunk (part.angle.head?.map start) = .ok t → t.Plain → Local chunk) :
    Local (angleInner part.angle) := by
  obtain ⟨args, hargs, rfl⟩ := map_eq_ok_iff.1 h
  refine local_of_splitCommas fun chunk hchunk => ?_
  obtain ⟨arg, harg, hread⟩ := exists_of_forall₂ (mapM_eq_ok_iff.1 hargs) chunk hchunk
  exact local_argOf hread (hplain arg harg) (htype chunk hchunk)

/-- Plain segments make a plain path only of parts that take all the trees. -/
theorem plain_of_ofSegments {leadingColon : Bool} {ending : PathEnd}
    {segments : List PathSegment} {t : RustType}
    (h : ofSegments trees leadingColon ending segments = .ok t) (hplain : t.Plain) :
    ending = .complete [] ∧ ∀ segment ∈ segments, ∀ arg ∈ segment.args, TypeArg.Plain arg := by
  unfold ofSegments at h
  split at h
  · cases h
  · split at h
    · rename_i last hlast
      cases h
      obtain ⟨front, rfl⟩ := List.getLast?_eq_some_iff.1 hlast
      cases hplain with
      | path hplain =>
        rw [List.dropLast_concat] at hplain
        exact ⟨rfl, hplain⟩
    · cases h
      cases hplain
  · cases h
    cases hplain

/-- A plain type is read from local tokens. By induction on the number of tokens, since types
stand inside of types. -/
theorem local_of_ofTrees {anchor : Option Location} {t : RustType}
    (h : ofTrees trees anchor = .ok t) (hplain : t.Plain) (hformed : Formed trees) :
    Local trees := by
  induction hcount : count trees using Nat.strongRecOn generalizing trees anchor t with
  | ind n ih =>
    subst hcount
    cases trees with
    | nil => exact local_nil
    | cons first rest =>
      rw [ofTrees_cons] at h
      split at h
      · rename_i hamp
        obtain ⟨elem, helem, rfl⟩ := map_eq_ok_iff.1 h
        cases hplain with
        | reference hplain =>
          have hsub :=
            (leadingToken_sublist (·.isIdent "mut") _).trans (leadingLifetime_sublist rest)
          have hlt := Nat.lt_of_le_of_lt (count_le_of_sublist hsub) (count_lt_cons first rest)
          have hbehind := ih _ hlt helem hplain (hformed.of_subset (hsub.cons first).subset) rfl
          rw [local_cons]
          exact ⟨local_punct hamp (by decide) (by decide),
            local_leadingLifetime (local_leadingToken (fun _ => local_word) hbehind)⟩
      · split at h
        · rename_i g hparen
          obtain ⟨elems, helems, rfl⟩ := map_eq_ok_iff.1 h
          cases hplain with
          | tuple hplain =>
            have htrees := eq_of_onlyParen hparen
            rw [htrees] at hformed ⊢
            refine local_group hformed (local_of_splitCommas fun chunk hchunk => ?_)
            obtain ⟨elem, helem, hread⟩ := exists_of_forall₂ (mapM_eq_ok_iff.1 helems) chunk hchunk
            have hlt := Nat.lt_of_le_of_lt (count_le_of_mem_splitCommas hchunk)
              (count_onlyParen hparen)
            exact ih _ hlt hread (hplain elem helem)
              (hformed.of_group.1.of_subset (sublist_of_mem_splitCommas hchunk).subset) rfl
        · split at h
          · obtain ⟨segments, hsegments, h⟩ := exists_of_bind_eq_ok h
            obtain ⟨hcomplete, hplain⟩ := plain_of_ofSegments h hplain
            refine local_leadingToken (fun _ => local_colons) (local_pathParts hcomplete ?_)
            intro part hpart
            obtain ⟨segment, hsegment, hread⟩ :=
              exists_of_forall₂ (mapM_eq_ok_iff.1 hsegments) part hpart
            refine local_segmentOf hread (hplain segment hsegment)
              fun chunk hchunk t ht hplain => ?_
            have hsub := (sublist_of_mem_splitCommas hchunk).trans
              ((List.dropLast_sublist _).trans (List.drop_sublist 1 part.angle))
            have hangle := (angle_sublist_of_mem_pathParts _ part hpart).trans
              (leadingToken_sublist _ _)
            have hlt := Nat.lt_of_lt_of_le (count_lt_of_mem_angle hchunk)
              (count_le_of_sublist hangle)
            exact ih _ hlt ht hplain (hformed.of_subset (hsub.trans hangle).subset) rfl
          · cases h
            cases hplain

end RustType
end LuaBindings
