import LuaBindings.Proofs.Declaration.Marked
import LuaBindings.Proofs.Declaration.Parameters
import Mathlib.Data.List.Infix
import Mathlib.Data.List.TakeWhile

/-!
# Searching joined lists

A reader that finds what it looks for among the trees that are left gives the same when
others come behind them. So a search of two lists that are joined where an item ends finds
what the searches of the two find (`inTrees_append`), unless the head of a marked block in
the first has no end there: then it is read on into the second.
-/

set_option autoImplicit false

namespace LuaBindings

def Cursor.followedBy (c : Cursor) (more : List TokenTree) (anchor : Option Location) : Cursor :=
  ⟨c.past, c.rest ++ more, anchor⟩

@[simp] theorem Cursor.position_followedBy (c : Cursor) (more : List TokenTree)
    (anchor : Option Location) : (c.followedBy more anchor).position = c.position := rfl

namespace Reader

variable {α β : Type}

/-- What the reader gives does not depend on what follows the trees that are left. -/
structure StaysWithin (reader : Reader α) (c : Cursor) : Prop where
  ok {a : α} {c' : Cursor} (h : reader c = .ok a c') (more : List TokenTree)
    (anchor : Option Location) :
    reader (c.followedBy more anchor) = .ok a (c'.followedBy more anchor)
  error {f : Failure} {c' : Cursor} (h : reader c = .error f c') (more : List TokenTree)
    (anchor : Option Location) : ∃ c'', reader (c.followedBy more anchor) = .error f c''

theorem bind_of_error {x : Reader α} {f : α → Reader β} {c c' : Cursor} {e : Failure}
    (h : x c = .error e c') : (x >>= f) c = .error e c' := by
  change EStateM.bind x f c = _
  rw [EStateM.bind, h]

theorem StaysWithin.bind {x : Reader α} {f : α → Reader β} {c : Cursor} (hx : x.StaysWithin c)
    (hf : ∀ a c', x c = .ok a c' → (f a).StaysWithin c') : (x >>= f).StaysWithin c := by
  cases hfirst : x c with
  | error e c₁ =>
    constructor
    · intro b c' h
      rw [bind_of_error hfirst] at h
      cases h
    · intro e' c' h more anchor
      rw [bind_of_error hfirst] at h
      cases h
      obtain ⟨c'', hfails⟩ := hx.error hfirst more anchor
      exact ⟨c'', bind_of_error hfails⟩
  | ok a c₁ =>
    have hmore := hx.ok hfirst
    have hf := hf a c₁ hfirst
    constructor
    · intro b c' h more anchor
      rw [bind_of_ok hfirst] at h
      rw [bind_of_ok (hmore more anchor)]
      exact hf.ok h more anchor
    · intro e c' h more anchor
      rw [bind_of_ok hfirst] at h
      rw [bind_of_ok (hmore more anchor)]
      exact hf.error h more anchor

theorem staysWithin_pure (a : α) (c : Cursor) : (pure a : Reader α).StaysWithin c where
  ok h _ _ := by
    cases h
    rfl
  error h := by cases h

theorem staysWithin_throw (f : Failure) (c : Cursor) : (throw f : Reader α).StaysWithin c where
  ok h := by cases h
  error h _ _ := by
    cases h
    exact ⟨_, rfl⟩

theorem staysWithin_ofExcept (result : Except Failure α) (c : Cursor) :
    (ofExcept result).StaysWithin c := by
  cases result with
  | ok a => exact staysWithin_pure a c
  | error f => exact staysWithin_throw f c

variable {c : Cursor}

theorem skip_followedBy {n : Nat} (h : n ≤ c.rest.length) (more : List TokenTree)
    (anchor : Option Location) :
    (c.followedBy more anchor).skip n = (c.skip n).followedBy more anchor := by
  simp [Cursor.skip, Cursor.followedBy, List.take_append_of_le_length h,
    List.drop_append_of_le_length h]

theorem peek_followedBy (h : c.rest ≠ []) (more : List TokenTree) (anchor : Option Location) :
    (c.followedBy more anchor).peek 0 = c.peek 0 := by
  simp [Cursor.peek, Cursor.followedBy, List.getElem?_append_left (List.length_pos_iff.2 h)]

theorem staysWithin_eat (p : Token → Bool) (h : c.rest ≠ []) : (eat p).StaysWithin c where
  ok hread more anchor := by
    rw [eat, peek_followedBy h]
    rw [eat] at hread
    split at hread
    · cases hread
      rfl
    · cases hread
      rw [skip_followedBy (List.length_pos_iff.2 h)]
  error hread := by
    rw [eat] at hread
    split at hread <;> cases hread

theorem staysWithin_eatWord (name : String) (h : c.rest ≠ []) :
    (eatWord name).StaysWithin c :=
  (staysWithin_eat _ h).bind fun _ _ _ => staysWithin_pure _ _

theorem staysWithin_takeUntil {p : TokenTree → Bool} (h : ∃ tree ∈ c.rest, p tree = true) :
    (takeUntil p).StaysWithin c where
  ok hread more anchor := by
    cases hread
    obtain ⟨tree, hmem, hp⟩ := h
    have htake : (c.rest ++ more).takeWhile (fun tree => !p tree) =
        c.rest.takeWhile fun tree => !p tree := by
      rw [List.takeWhile_append, if_neg]
      intro hlength
      have hall := List.takeWhile_eq_self_iff.1 ((List.takeWhile_prefix _).eq_of_length hlength)
      simpa [hp] using hall tree hmem
    have hle := (List.takeWhile_prefix (l := c.rest) fun tree => !p tree).length_le
    change takeUntil p (c.followedBy more anchor) = _
    simp only [takeUntil]
    rw [Cursor.followedBy, htake]
    exact congrArg _ (skip_followedBy hle more anchor)
  error hread := by cases hread

/-- A tree at which a reader stops is not taken. -/
theorem mem_rest_of_takeUntil {p : TokenTree → Bool} {taken : List TokenTree} {c' : Cursor}
    {tree : TokenTree} (h : takeUntil p c = .ok taken c') (hmem : tree ∈ c.rest)
    (hp : p tree = true) : tree ∈ c'.rest := by
  cases h
  have htaken := List.prefix_iff_eq_take.1
    (List.takeWhile_prefix (l := c.rest) fun tree => !p tree)
  rw [(Cursor.takes_skip c _).rest_eq, ← htaken] at hmem
  rcases List.mem_append.1 hmem with htaken | hleft
  · simpa [hp] using List.mem_takeWhile_imp htaken
  · exact hleft

theorem staysWithin_expectGroup (d : Delimiter) (h : c.rest ≠ []) :
    (expectGroup d).StaysWithin c where
  ok hread more anchor := by
    rw [expectGroup, peek_followedBy h]
    rw [expectGroup] at hread
    split at hread
    · cases hread
    · cases hread
      rw [skip_followedBy (List.length_pos_iff.2 h)]
  error hread more anchor := by
    rw [expectGroup, peek_followedBy h]
    rw [expectGroup] at hread
    have hplace : (c.followedBy more anchor).place = c.place := by
      cases hrest : c.rest with
      | nil => exact absurd hrest h
      | cons tree rest => simp [Cursor.place, Cursor.followedBy, TokenTree.placeOr, hrest]
    split at hread
    · cases hread
      exact ⟨_, by rw [Cursor.failure, hplace, Cursor.failure]⟩
    · cases hread

/-! ### Words and angle lists at the front -/

open RustType (leadingToken leadingAngle)

theorem eatWord_eq_ok {name : String} {c' : Cursor} {isThere : Bool}
    (h : eatWord name c = .ok isThere c') :
    leadingToken (·.isIdent name) c.rest = (isThere, c'.rest) := by
  obtain ⟨t, c₁, heat, h⟩ := bind_eq_ok h
  cases h
  simp only [eatIdent, eat, Cursor.peek, ← List.head?_eq_getElem?] at heat
  cases hrest : c.rest with
  | nil =>
    rw [hrest] at heat
    cases heat
    simp [leadingToken, hrest]
  | cons tree rest =>
    rw [hrest, List.head?_cons, Option.bind_some] at heat
    cases htree : tree.token? (·.isIdent name) with
    | none =>
      rw [htree] at heat
      cases heat
      simp [leadingToken, TokenTree.isIdent, TokenTree.isToken, htree, hrest]
    | some u =>
      rw [htree] at heat
      cases heat
      simp [leadingToken, TokenTree.isIdent, TokenTree.isToken, htree, hrest, Cursor.skip]

theorem throughAngle_append_right {depth : Nat} {trees angle rest : List TokenTree}
    (h : TokenTree.throughAngle depth trees = some (angle, rest)) (more : List TokenTree) :
    TokenTree.throughAngle depth (trees ++ more) = some (angle, rest ++ more) := by
  fun_induction TokenTree.throughAngle depth trees generalizing angle with
  | case1 => cases h
  | case2 depth tree trees hzero =>
    cases h
    rw [List.cons_append, TokenTree.throughAngle, if_pos hzero]
  | case3 depth tree trees hzero ih =>
    obtain ⟨split, hsplit, heq⟩ := Option.map_eq_some_iff.1 h
    cases heq
    rw [List.cons_append, TokenTree.throughAngle, if_neg hzero, ih hsplit]
    rfl

theorem leadingAngle_append_right {trees angle rest : List TokenTree} (hne : trees ≠ [])
    (h : leadingAngle trees = some (angle, rest)) (more : List TokenTree) :
    leadingAngle (trees ++ more) = some (angle, rest ++ more) := by
  cases trees with
  | nil => exact absurd rfl hne
  | cons tree trees =>
    rw [leadingAngle] at h
    rw [List.cons_append, leadingAngle]
    by_cases hopen : tree.isPunct "<" = true
    · rw [if_pos hopen] at h ⊢
      obtain ⟨split, hsplit, heq⟩ := Option.map_eq_some_iff.1 h
      cases heq
      rw [throughAngle_append_right hsplit]
      rfl
    · rw [if_neg hopen] at h ⊢
      cases h
      rfl

/-- An angle list that closes is taken, and nothing where none begins. -/
theorem optionalAngleList_eq {angle head : List TokenTree}
    (h : leadingAngle c.rest = some (angle, head)) :
    optionalAngleList c = .ok angle ⟨angle.reverse ++ c.past, head, c.anchor⟩ := by
  obtain ⟨past, rest, anchor⟩ := c
  change leadingAngle rest = _ at h
  have hsees := yields_sees (·.isPunct "<") rest past anchor
  refine (bind_of_ok hsees).trans ?_
  cases rest with
  | nil =>
    cases h
    rfl
  | cons tree rest =>
    rw [leadingAngle] at h
    rw [List.head?_cons, Option.any_some]
    by_cases hopen : tree.isPunct "<" = true
    · rw [if_pos hopen] at h ⊢
      obtain ⟨⟨inner, after⟩, hsplit, heq⟩ := Option.map_eq_some_iff.1 h
      cases heq
      obtain ⟨t, htoken⟩ := Option.isSome_iff_exists.1 hopen
      obtain ⟨rfl, ht⟩ := TokenTree.token?_eq_some htoken
      have hopening := yields_expectPunct ⟨t, ht⟩ rest past anchor
      refine (bind_of_ok hopening).trans ?_
      let c : Cursor := ⟨[TokenTree.token t].reverse ++ past, rest, anchor⟩
      change (get >>= _ : Reader (List TokenTree)) c = _
      rw [bind_of_ok (show (get : Reader Cursor) c = .ok c c from rfl), hsplit]
      change EStateM.Result.ok _ (c.skip inner.length) = _
      have happ := TokenTree.throughAngle_append hsplit
      subst happ
      rw [Cursor.skip_append]
      simp
    · rw [if_neg hopen] at h ⊢
      cases h
      rfl

theorem staysWithin_optionalAngleList {angle head : List TokenTree} (hne : c.rest ≠ [])
    (h : leadingAngle c.rest = some (angle, head)) : optionalAngleList.StaysWithin c where
  ok hread more anchor := by
    rw [optionalAngleList_eq h] at hread
    cases hread
    exact optionalAngleList_eq (leadingAngle_append_right hne h more)
  error hread := by
    rw [optionalAngleList_eq h] at hread
    cases hread

end Reader

/-! ### Blocks that end in their list -/

open RustType (leadingToken leadingAngle)

namespace ImplBlock

def behindImpl? (trees : List TokenTree) : Option (List TokenTree) :=
  match leadingToken (·.isIdent "impl") (leadingToken (·.isIdent "unsafe") trees).2 with
  | (true, rest) => some rest
  | (false, _) => none

/-- If a block begins here, its generic parameters close and there are braces behind
them. -/
def isComplete (trees : List TokenTree) : Bool :=
  match behindImpl? trees with
  | none => true
  | some rest =>
    match leadingAngle rest with
    | none => false
    | some (_, head) => head.any (·.isGroup .brace)

/-- Trees that do not end with a word go on behind a word at their front. -/
theorem leadingToken_ne_nil {p : TokenTree → Bool} {trees : List TokenTree} (hne : trees ≠ [])
    (hlast : ∀ last ∈ trees.getLast?, p last = false) : (leadingToken p trees).2 ≠ [] := by
  match trees with
  | [] => exact absurd rfl hne
  | [tree] => simp [leadingToken, hlast tree rfl]
  | tree :: next :: rest =>
    unfold leadingToken
    split <;> simp

theorem exists_braces {trees rest : List TokenTree} (h : isComplete trees = true)
    (hrest : behindImpl? trees = some rest) :
    ∃ angle head, leadingAngle rest = some (angle, head) ∧
      ∃ tree ∈ head, tree.isGroup .brace = true := by
  rw [isComplete, hrest] at h
  cases hangle : leadingAngle rest with
  | none => simp [hangle] at h
  | some split => exact ⟨split.1, split.2, rfl, by simpa [hangle] using h⟩

/-- A block is read to its end, or refused, whatever comes behind trees that hold all of
it. -/
theorem staysWithin_reader (start : Location) (marker : Attribute)
    (attributes : List Attribute) {c : Cursor} (hne : c.rest ≠ [])
    (hlast : ∀ last ∈ c.rest.getLast?, last.isIdent "unsafe" = false)
    (hcomplete : isComplete c.rest = true) :
    (reader start marker attributes).StaysWithin c := by
  have hrest := leadingToken_ne_nil hne hlast
  refine (Reader.staysWithin_eatWord _ hne).bind fun _ c₁ hword => ?_
  have hword := Reader.eatWord_eq_ok hword
  rw [hword] at hrest
  refine (Reader.staysWithin_eatWord _ hrest).bind fun isImpl c₂ himpl => ?_
  have himpl := Reader.eatWord_eq_ok himpl
  cases isImpl with
  | false => exact (Reader.staysWithin_throw _ _).bind fun _ _ h => by cases h
  | true =>
    have hbehind : behindImpl? c.rest = some c₂.rest := by rw [behindImpl?, hword, himpl]
    obtain ⟨angle, head, hangle, tree, hmem, hbrace⟩ := exists_braces hcomplete hbehind
    have hne₂ : c₂.rest ≠ [] := by
      rw [← RustType.leadingAngle_append hangle]
      exact fun hnil => List.ne_nil_of_mem hmem (List.append_eq_nil_iff.1 hnil).2
    have hends : endsHead tree = true := by rw [endsHead, hbrace, Bool.true_or]
    rw [if_neg (by decide)]
    refine (Reader.staysWithin_optionalAngleList hne₂ hangle).bind fun _ c₃ hgenerics => ?_
    rw [Reader.optionalAngleList_eq hangle] at hgenerics
    cases hgenerics
    refine (Reader.staysWithin_takeUntil ⟨tree, hmem, hends⟩).bind fun header c₄ hheader => ?_
    have hmem₄ := Reader.mem_rest_of_takeUntil hheader hmem hends
    refine (Reader.staysWithin_ofExcept _ _).bind fun _ c₅ htype => ?_
    obtain ⟨_, rfl⟩ := Reader.ofExcept_eq_ok htype
    refine (Reader.staysWithin_takeUntil ⟨tree, hmem₄, hbrace⟩).bind fun _ c₆ hwhere => ?_
    have hmem₆ := Reader.mem_rest_of_takeUntil hwhere hmem₄ hbrace
    refine (Reader.staysWithin_expectGroup _ (List.ne_nil_of_mem hmem₆)).bind fun _ _ _ => ?_
    exact (Reader.staysWithin_ofExcept _ _).bind fun _ _ _ => Reader.staysWithin_pure _ _

end ImplBlock

/-! ### Where an item ends -/

namespace TokenTree

def closesItem (tree : TokenTree) : Bool := tree.isGroup .brace || tree.isPunct ";"

def EndsItem (trees : List TokenTree) : Prop := ∀ last ∈ trees.getLast?, last.closesItem = true

instance (trees : List TokenTree) : Decidable (EndsItem trees) :=
  inferInstanceAs (Decidable (∀ last ∈ trees.getLast?, last.closesItem = true))

theorem EndsItem.suffix {trees part : List TokenTree} (h : EndsItem trees) (hpart : part <:+ trees) :
    EndsItem part := by
  obtain ⟨front, rfl⟩ := hpart
  intro last hlast
  exact h last (by rw [List.getLast?_append, hlast]; rfl)

/-- What ends an item is no word and no part of an attribute. -/
theorem not_of_closesItem {tree : TokenTree} (h : tree.closesItem = true) :
    (∀ name, tree.isIdent name = false) ∧ tree.isPunct "#" = false ∧
      tree.isGroup .bracket = false := by
  rw [closesItem, Bool.or_eq_true] at h
  rcases h with hbrace | hsemicolon
  · cases tree with
    | token t => cases hbrace
    | group d opener inner closer =>
      refine ⟨fun _ => rfl, rfl, ?_⟩
      by_cases hd : d = .brace
      · simp [isGroup, group?, hd]
      · simp [isGroup, group?, hd] at hbrace
  · refine ⟨Reader.isIdent_of_isPunct hsemicolon, isPunct_eq_false hsemicolon (by decide), ?_⟩
    obtain ⟨t, rfl, _⟩ := isPunct_iff.1 hsemicolon
    rfl

end TokenTree

open TokenTree (EndsItem)

/-- The attributes at the front of trees end where they did, for no attribute is cut in two
where an item ends. -/
theorem Attribute.leading_append {trees : List TokenTree} (hends : EndsItem trees)
    (hne : trees ≠ []) (more : List TokenTree) :
    leading (trees ++ more) = ((leading trees).1, (leading trees).2 ++ more) := by
  fun_induction leading trees with
  | case1 hash brackets rest t g hbrackets hhash attributes after heq ih =>
    have hrest : rest ≠ [] := by
      rintro rfl
      have hno := (TokenTree.not_of_closesItem (hends brackets rfl)).2.2
      rw [TokenTree.isGroup, hbrackets] at hno
      cases hno
    rw [heq] at ih
    have ih := ih (hends.suffix ((List.suffix_cons _ _).trans (List.suffix_cons _ _))) hrest
    simp only [List.cons_append, leading, hhash, hbrackets, ih]
  | case2 hash brackets rest hnot =>
    rw [List.cons_append, List.cons_append, leading]
    split
    · rename_i hhash hbrackets
      exact absurd hbrackets (hnot _ _ hhash)
    · rfl
  | case3 trees hshort =>
    rcases trees with _ | ⟨tree, _ | ⟨next, rest⟩⟩
    · exact absurd rfl hne
    · have hno := (TokenTree.not_of_closesItem (hends tree rfl)).2.1
      exact leading_eq_nil hno
    · exact absurd rfl (hshort tree next rest)

/-- An attribute ends no item, so there is more behind it. -/
theorem Attribute.leading_snd_ne_nil {trees : List TokenTree} (hends : EndsItem trees)
    {first : Attribute} {others : List Attribute} :
    leading trees ≠ (first :: others, []) := by
  intro h
  obtain ⟨heq, hformed, _⟩ := leading_eq h
  obtain ⟨init, last, hconcat⟩ :=
    (List.eq_nil_or_concat (first :: others)).resolve_left (List.cons_ne_nil _ _)
  rw [hconcat] at heq hformed
  obtain ⟨hash, brackets, _, hbracket, rfl⟩ := hformed last (by simp)
  have hlast : brackets.tree ∈ trees.getLast? := by simp [heq, ofBrackets]
  have hno := (TokenTree.not_of_closesItem (hends _ hlast)).2.2
  rw [TokenTree.isGroup, TokenTree.group?_tree hbracket] at hno
  cases hno

theorem ImplItem.throughEnd_append {trees : List TokenTree} (hends : EndsItem trees)
    (hne : trees ≠ []) (more : List TokenTree) :
    throughEnd (trees ++ more) = throughEnd trees ++ more := by
  obtain ⟨last, hlast⟩ := Option.isSome_iff_exists.1 (List.getLast?_isSome.2 hne)
  have hmem : last ∈ trees.dropWhile fun tree => !(tree.isGroup .brace || tree.isPunct ";") := by
    rw [← List.takeWhile_append_dropWhile (p := fun tree : TokenTree =>
      !(tree.isGroup .brace || tree.isPunct ";")) (l := trees)] at hlast
    have hin := List.mem_of_getLast? hlast
    rcases List.mem_append.1 hin with htaken | hleft
    · have hcloses := hends last (by
        rwa [List.takeWhile_append_dropWhile] at hlast)
      have hno := List.mem_takeWhile_imp htaken
      rw [← TokenTree.closesItem, hcloses] at hno
      cases hno
    · exact hleft
  unfold throughEnd
  rw [List.dropWhile_append, if_neg (by simpa using List.ne_nil_of_mem hmem)]
  cases hdrop : trees.dropWhile fun tree => !(tree.isGroup .brace || tree.isPunct ";") with
  | nil =>
    rw [hdrop] at hmem
    cases hmem
  | cons tree rest => rfl

/-! ### Searching -/

namespace Found

/-- Every marked block that may begin in the trees ends in them. -/
def Complete (attrName : String) (trees : List TokenTree) : Prop :=
  ∀ part ∈ trees.tails, (Attribute.leading part).1.any (·.name == attrName) = true →
    ImplBlock.isComplete (Attribute.leading part).2 = true

instance (attrName : String) (trees : List TokenTree) : Decidable (Complete attrName trees) :=
  inferInstanceAs (Decidable (∀ part ∈ trees.tails, _ → _))

theorem Complete.suffix {attrName : String} {trees part : List TokenTree}
    (h : Complete attrName trees) (hpart : part <:+ trees) : Complete attrName part :=
  fun p hp => h p ((List.mem_tails _ _).2 (((List.mem_tails _ _).1 hp).trans hpart))

variable {attrName : String} {tree : TokenTree} {rest after trees : List TokenTree}
  {first : Attribute} {others : List Attribute} {marker : Attribute}

theorem inTrees_tree (h : Attribute.leading (tree :: rest) = ([], after)) :
    inTrees attrName (tree :: rest) =
      (inTrees attrName (inBraces tree)).append (inTrees attrName rest) := by
  rw [inTrees]
  split <;> simp_all

theorem inTrees_unmarked (h : Attribute.leading trees = (first :: others, after))
    (hnone : (first :: others).find? (·.name == attrName) = none) :
    inTrees attrName trees = inTrees attrName after := by
  cases trees with
  | nil => cases h
  | cons tree rest =>
    rw [inTrees]
    split
    · simp_all
    · rename_i heq
      rw [h] at heq
      cases heq
      simp only [hnone]

theorem inTrees_read {impl : ImplBlock} {c : Cursor}
    (h : Attribute.leading trees = (first :: others, after))
    (hsome : (first :: others).find? (·.name == attrName) = some marker)
    (hread : ImplBlock.reader first.place marker
      ((first :: others).eraseP (·.name == attrName))
      (.ofTrees after (TokenTree.endPlace none trees)) = .ok impl c) :
    inTrees attrName trees =
      (Found.mk [impl] []).append (inTrees attrName (after.drop c.position)) := by
  cases trees with
  | nil => cases h
  | cons tree rest =>
    rw [inTrees]
    split
    · simp_all
    · rename_i heq
      rw [h] at heq
      cases heq
      simp only [hsome, hread]

theorem inTrees_refused {f : Failure} {c : Cursor}
    (h : Attribute.leading trees = (first :: others, after))
    (hsome : (first :: others).find? (·.name == attrName) = some marker)
    (hread : ImplBlock.reader first.place marker
      ((first :: others).eraseP (·.name == attrName))
      (.ofTrees after (TokenTree.endPlace none trees)) = .error f c) :
    inTrees attrName trees =
      (Found.mk [] [f]).append (inTrees attrName (ImplItem.throughEnd after)) := by
  cases trees with
  | nil => cases h
  | cons tree rest =>
    rw [inTrees]
    split
    · simp_all
    · rename_i heq
      rw [h] at heq
      cases heq
      simp only [hsome, hread]

theorem append_assoc (a b c : Found) : (a.append b).append c = a.append (b.append c) := by
  simp [append]

theorem empty_append (a : Found) : empty.append a = a := rfl

/-- Behind the attributes at the front of trees that end an item, a marked block is read
within them. -/
theorem staysWithin_behind {anchor : Option Location} (hends : EndsItem trees)
    (hcomplete : Complete attrName trees)
    (h : Attribute.leading trees = (first :: others, after))
    (hsome : (first :: others).find? (·.name == attrName) = some marker) :
    after <:+ trees ∧ after ≠ [] ∧
      (ImplBlock.reader first.place marker
        ((first :: others).eraseP (·.name == attrName))).StaysWithin (.ofTrees after anchor) := by
  have hafter := Attribute.leading_suffix trees
  rw [h] at hafter
  have hne : after ≠ [] := by
    rintro rfl
    exact Attribute.leading_snd_ne_nil hends h
  refine ⟨hafter, hne, ImplBlock.staysWithin_reader _ _ _ hne (fun last hlast => ?_) ?_⟩
  · exact (TokenTree.not_of_closesItem (hends.suffix hafter last hlast)).1 _
  · have hmarked : (first :: others).any (·.name == attrName) = true := by
      rw [List.any_eq_true]
      exact ⟨marker, List.mem_of_find?_eq_some hsome,
        List.find?_some (p := fun a : Attribute => a.name == attrName) hsome⟩
    have hblock := hcomplete trees ((List.mem_tails _ _).2 List.suffix_rfl)
    rw [h] at hblock
    exact hblock hmarked

/-- Where an item ends a search may be cut in two, if no marked block is cut. -/
theorem inTrees_append (hends : EndsItem trees) (hcomplete : Complete attrName trees)
    (more : List TokenTree) :
    inTrees attrName (trees ++ more) = (inTrees attrName trees).append (inTrees attrName more) := by
  -- In each branch of the search the first list decides what is read, so with more behind it
  -- the same branch is taken and only the rest is longer.
  fun_induction inTrees attrName trees with
  | case1 => rw [List.nil_append, empty_append]
  | case2 tree rest after h _ _ _ ihrest =>
    have hrest := List.suffix_cons tree rest
    have hleading := Attribute.leading_append hends (List.cons_ne_nil _ _) more
    rw [h, List.cons_append] at hleading
    rw [List.cons_append, inTrees_tree hleading, append_assoc,
      ihrest (hends.suffix hrest) (hcomplete.suffix hrest)]
  | case3 tree rest first others after h _ attributes hnone ih =>
    have hafter : after <:+ tree :: rest := by
      have := Attribute.leading_suffix (tree :: rest)
      rwa [h] at this
    have hleading := Attribute.leading_append hends (List.cons_ne_nil _ _) more
    rw [h] at hleading
    rw [inTrees_unmarked hleading hnone, ih (hends.suffix hafter) (hcomplete.suffix hafter)]
  | case4 tree rest first others after h _ attributes marker hsome anchor reader impl c hread _ ih =>
    obtain ⟨hafter, hne, hstays⟩ := staysWithin_behind hends hcomplete h hsome
    have hleading := Attribute.leading_append hends (List.cons_ne_nil _ _) more
    rw [h] at hleading
    have hmore := hstays.ok hread more (TokenTree.endPlace none (tree :: rest ++ more))
    have hdrop : (after ++ more).drop c.position = after.drop c.position ++ more := by
      obtain ⟨head, body, htakes, _⟩ := ImplBlock.reader_eq_ok hread
      have hle : c.position ≤ after.length := by
        have hrest : after = (head ++ [body.tree]) ++ c.rest := htakes.rest_eq
        have hlength := congrArg List.length hrest
        rw [List.length_append] at hlength
        rw [htakes.position_eq, hlength]
        exact Nat.le_add_right _ _
      exact List.drop_append_of_le_length hle
    have hsuffix := (List.drop_suffix c.position after).trans hafter
    rw [inTrees_read hleading hsome hmore, Cursor.position_followedBy, hdrop,
      ih (hends.suffix hsuffix) (hcomplete.suffix hsuffix), append_assoc]
  | case5 tree rest first others after h _ attributes marker hsome anchor reader f c hread _ ih =>
    obtain ⟨hafter, hne, hstays⟩ := staysWithin_behind hends hcomplete h hsome
    have hleading := Attribute.leading_append hends (List.cons_ne_nil _ _) more
    rw [h] at hleading
    obtain ⟨c', hmore⟩ := hstays.error hread more (TokenTree.endPlace none (tree :: rest ++ more))
    have hsuffix := (ImplItem.throughEnd_suffix after).trans hafter
    rw [inTrees_refused hleading hsome hmore, ImplItem.throughEnd_append (hends.suffix hafter) hne,
      ih (hends.suffix hsuffix) (hcomplete.suffix hsuffix), append_assoc]

/-- The blocks and the failures of two lists are those of the first and then those of the
second, if the first ends where an item ends and cuts no marked block in two. -/
theorem parts_of_joined (hends : EndsItem trees) (hcomplete : Complete attrName trees)
    (more : List TokenTree) :
    (inTrees attrName (trees ++ more)).impls =
        (inTrees attrName trees).impls ++ (inTrees attrName more).impls ∧
      (inTrees attrName (trees ++ more)).failures =
        (inTrees attrName trees).failures ++ (inTrees attrName more).failures := by
  rw [inTrees_append hends hcomplete more]
  exact ⟨rfl, rfl⟩

/-- Behind a marked function that is refused a block is found as it is on its own. -/
theorem parts_of_joined_refused : ∃ front back,
    TokenTree.ofSource "#[lua_methods]\nfn f();\n#[lua_methods]\nimpl B \x7b\x7d\n" =
      .ok (front ++ back) ∧
    EndsItem front ∧ Complete "lua_methods" front ∧
    (inTrees "lua_methods" front).failures.length = 1 ∧
    ((inTrees "lua_methods" (front ++ back)).impls =
        (inTrees "lua_methods" front).impls ++ (inTrees "lua_methods" back).impls ∧
      (inTrees "lua_methods" (front ++ back)).failures =
        (inTrees "lua_methods" front).failures ++ (inTrees "lua_methods" back).failures) := by
  let read := (TokenTree.ofSource
    "#[lua_methods]\nfn f();\n#[lua_methods]\nimpl B \x7b\x7d\n").toOption
  let trees := read.getD []
  have hruns : read.isSome ∧ EndsItem (trees.take 6) ∧ Complete "lua_methods" (trees.take 6) ∧
      (inTrees "lua_methods" (trees.take 6)).failures.length = 1 := by
    decide +kernel
  obtain ⟨hread, hends, hcomplete, hfails⟩ := hruns
  refine ⟨trees.take 6, trees.drop 6, ?_, hends, hcomplete, hfails,
    parts_of_joined hends hcomplete _⟩
  rw [List.take_append_drop]
  exact eq_ok_of_toOption (Option.getD_of_ne_none (Option.ne_none_iff_isSome.2 hread) []).symm

/-- A block whose head has no braces is refused on its own, but with a block behind it
the two are read as one. -/
theorem parts_of_joined_merged : ∃ front back,
    TokenTree.ofSource "#[lua_methods]\nimpl A;\n#[lua_methods]\nimpl B \x7b\x7d\n" =
      .ok (front ++ back) ∧
    EndsItem front ∧
    (inTrees "lua_methods" front).failures =
      [.single ⟨.expected "\x7b", some 2, some 7⟩] ∧
    (inTrees "lua_methods" back).impls.length = 1 ∧
    (inTrees "lua_methods" (front ++ back)).failures = [] ∧
    (inTrees "lua_methods" (front ++ back)).impls.map (·.stop) =
      (inTrees "lua_methods" back).impls.map (·.stop) ∧
    (inTrees "lua_methods" (front ++ back)).impls.map (·.start) ≠
      (inTrees "lua_methods" back).impls.map (·.start) := by
  let read := (TokenTree.ofSource
    "#[lua_methods]\nimpl A;\n#[lua_methods]\nimpl B \x7b\x7d\n").toOption
  let trees := read.getD []
  have hread : read.isSome := by decide +kernel
  refine ⟨trees.take 5, trees.drop 5, ?_, by decide +kernel⟩
  rw [List.take_append_drop]
  exact eq_ok_of_toOption (Option.getD_of_ne_none (Option.ne_none_iff_isSome.2 hread) []).symm

end Found
end LuaBindings
