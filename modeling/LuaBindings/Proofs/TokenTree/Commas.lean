import LuaBindings.Proofs.Yields

/-!
# Commas outside of brackets, and the bracket that closes

Two readers count angle brackets in lists that need not balance. The one that cuts at commas never
counts below zero: its chunks with the commas between them make up the list again, and no chunk
has such a comma of its own (`SplitAtCommas`). The one that reads an angle list stops at the first
place where as many brackets have closed as opened (`ShortestBalanced`). Between the brackets of
such a list the count never has to be held at zero, so the commas at which it is cut are those
with no other bracket around them (`comma_and_angle_lists`).
-/

set_option autoImplicit false

namespace LuaBindings.TokenTree

/-- A comma outside of angle brackets, if so many of them are open before the trees in front
of it. -/
def OuterComma (depth : Nat) (before : List TokenTree) (tree : TokenTree) : Prop :=
  tree.isPunct "," = true ∧ before.foldl angleDepth depth = 0

instance (depth : Nat) (before : List TokenTree) (tree : TokenTree) :
    Decidable (OuterComma depth before tree) :=
  inferInstanceAs (Decidable (_ ∧ _))

def EndsWithComma (depth : Nat) (trees : List TokenTree) : Prop :=
  ∃ before comma, trees = before ++ [comma] ∧ OuterComma depth before comma

/-- The trees cut at those of them that are separators behind the trees before them. -/
def cutWhere (separates : List TokenTree → TokenTree → Bool) (before : List TokenTree) :
    List TokenTree → List (List TokenTree)
  | [] => [[]]
  | tree :: rest =>
    let chunks := cutWhere separates (before ++ [tree]) rest
    if separates before tree then [] :: chunks else chunks.modifyHead (tree :: ·)

def joinWith : List (List TokenTree) → List TokenTree → List TokenTree
  | chunk :: next :: chunks, separator :: separators =>
    chunk ++ separator :: joinWith (next :: chunks) separators
  | chunk :: _, _ => chunk
  | [], _ => []

/-! ### Chunks -/

def chunksFrom (depth : Nat) (trees : List TokenTree) : List (List TokenTree) :=
  (commaChunks depth trees).1 :: (commaChunks depth trees).2

section
variable {depth : Nat} {tree comma : TokenTree} {front rest trees chunk : List TokenTree}

theorem outerComma_nil : OuterComma depth [] tree ↔ tree.isPunct "," = true ∧ depth = 0 := Iff.rfl

theorem outerComma_cons :
    OuterComma depth (tree :: front) comma ↔ OuterComma (angleDepth depth tree) front comma :=
  Iff.rfl

theorem angleDepth_comma (h : tree.isPunct "," = true) : angleDepth depth tree = depth :=
  angleDepth_plain depth (isPunct_eq_false h (by decide)) (isPunct_eq_false h (by decide))

theorem chunksFrom_nil : chunksFrom depth [] = [[]] := rfl

theorem chunksFrom_comma (h : OuterComma depth [] tree) :
    chunksFrom depth (tree :: rest) = [] :: chunksFrom 0 rest := by
  rw [chunksFrom, commaChunks, if_pos (outerComma_nil.1 h)]
  rfl

theorem chunksFrom_other (h : ¬OuterComma depth [] tree) :
    chunksFrom depth (tree :: rest) =
      (tree :: (commaChunks (angleDepth depth tree) rest).1) ::
        (commaChunks (angleDepth depth tree) rest).2 := by
  rw [chunksFrom, commaChunks, if_neg (mt outerComma_nil.2 h)]

/-- The chunks are those of the trees cut at the commas outside of brackets. -/
theorem chunksFrom_eq_cutWhere (before trees : List TokenTree) :
    chunksFrom (before.foldl angleDepth 0) trees =
      cutWhere (fun before tree => decide (OuterComma 0 before tree)) before trees := by
  induction trees generalizing before with
  | nil => rfl
  | cons tree rest ih =>
    have hrest := ih (before ++ [tree])
    rw [List.foldl_append] at hrest
    have hsame : OuterComma (before.foldl angleDepth 0) [] tree ↔ OuterComma 0 before tree :=
      Iff.rfl
    rw [cutWhere, ← hrest]
    by_cases h : OuterComma 0 before tree
    · have hdepth : angleDepth (before.foldl angleDepth 0) tree = 0 := by
        rw [angleDepth_comma h.1, h.2]
      rw [chunksFrom_comma (hsame.2 h), if_pos (decide_eq_true h)]
      exact congrArg (fun depth => [] :: chunksFrom depth rest) hdepth.symm
    · rw [chunksFrom_other (mt hsame.1 h), if_neg (mt of_decide_eq_true h)]
      rfl

/-- Chunks end where an outer comma stands, and begin again behind it. -/
theorem chunksFrom_append_comma (h : OuterComma depth front comma) :
    chunksFrom depth (front ++ comma :: rest) = chunksFrom depth front ++ chunksFrom 0 rest := by
  induction front generalizing depth with
  | nil => rw [List.nil_append, chunksFrom_comma h, chunksFrom_nil, List.singleton_append]
  | cons tree front ih =>
    have hfront := ih (outerComma_cons.1 h)
    rw [List.cons_append]
    by_cases htree : OuterComma depth [] tree
    · have hdepth : angleDepth depth tree = 0 := (angleDepth_comma htree.1).trans htree.2
      rw [hdepth] at hfront
      rw [chunksFrom_comma htree, chunksFrom_comma htree, hfront, List.cons_append]
    · rw [chunksFrom, chunksFrom, List.cons_append, List.cons.injEq] at hfront
      rw [chunksFrom_other htree, chunksFrom_other htree, hfront.1, hfront.2, List.cons_append]

theorem joinWith_cons (tree : TokenTree) (chunk : List TokenTree) (chunks : List (List TokenTree))
    (separators : List TokenTree) :
    joinWith ((tree :: chunk) :: chunks) separators =
      tree :: joinWith (chunk :: chunks) separators := by
  cases chunks with
  | nil => rfl
  | cons next chunks => cases separators <;> rfl

/-- The chunks with commas between them are the whole list. -/
theorem exists_joinWith_chunksFrom (depth : Nat) (trees : List TokenTree) :
    ∃ commas, (∀ comma ∈ commas, comma.isPunct "," = true) ∧
      commas.length + 1 = (chunksFrom depth trees).length ∧
      joinWith (chunksFrom depth trees) commas = trees := by
  induction trees generalizing depth with
  | nil => exact ⟨[], List.forall_mem_nil _, rfl, rfl⟩
  | cons tree rest ih =>
    by_cases h : OuterComma depth [] tree
    · obtain ⟨commas, hcommas, hlength, hjoined⟩ := ih 0
      rw [chunksFrom_comma h]
      refine ⟨tree :: commas, List.forall_mem_cons.2 ⟨h.1, hcommas⟩, ?_, ?_⟩
      · rw [List.length_cons, List.length_cons, hlength]
      · rw [chunksFrom] at hjoined ⊢
        rw [joinWith, hjoined, List.nil_append]
    · obtain ⟨commas, hcommas, hlength, hjoined⟩ := ih (angleDepth depth tree)
      rw [chunksFrom] at hlength hjoined
      rw [chunksFrom_other h]
      exact ⟨commas, hcommas, hlength, by rw [joinWith_cons, hjoined]⟩

/-- The first chunk has no comma that is outside of the brackets open before the list. -/
theorem not_outerComma_commaChunks (depth : Nat) (trees : List TokenTree) :
    (∀ before comma after, (commaChunks depth trees).1 = before ++ comma :: after →
      ¬OuterComma depth before comma) ∧
    ∀ chunk ∈ (commaChunks depth trees).2, ∀ before comma after,
      chunk = before ++ comma :: after → ¬OuterComma 0 before comma := by
  fun_induction commaChunks depth trees with
  | case1 =>
    exact ⟨fun _ _ _ h =>
        absurd h.symm (List.append_ne_nil_of_right_ne_nil _ (List.cons_ne_nil _ _)),
      List.forall_mem_nil _⟩
  | case2 depth tree rest _ chunk chunks heq ih =>
    rw [heq] at ih
    exact ⟨fun _ _ _ h =>
        absurd h.symm (List.append_ne_nil_of_right_ne_nil _ (List.cons_ne_nil _ _)),
      List.forall_mem_cons.2 ih⟩
  | case3 depth tree rest hother chunk chunks heq ih =>
    rw [heq] at ih
    refine ⟨fun before comma after h => ?_, ih.2⟩
    cases before with
    | nil =>
      cases h
      exact mt outerComma_nil.1 hother
    | cons first before =>
      rw [List.cons_append, List.cons.injEq] at h
      rw [← h.1, outerComma_cons]
      exact ih.1 before comma after h.2

theorem not_outerComma_chunksFrom (hchunk : chunk ∈ chunksFrom 0 trees)
    {before after : List TokenTree} (h : chunk = before ++ comma :: after) : ¬OuterComma 0 before comma := by
  obtain ⟨hfirst, hothers⟩ := not_outerComma_commaChunks 0 trees
  rcases List.mem_cons.1 hchunk with rfl | hmem
  · exact hfirst before comma after h
  · exact hothers chunk hmem before comma after h

/-- The chunk at the end is empty behind an outer comma only, or in an empty list. -/
theorem getLast?_chunksFrom (depth : Nat) (trees : List TokenTree)
    (h : (chunksFrom depth trees).getLast? = some []) :
    trees = [] ∨ EndsWithComma depth trees := by
  induction trees generalizing depth with
  | nil => exact .inl rfl
  | cons tree rest ih =>
    right
    by_cases htree : OuterComma depth [] tree
    · have hdepth : angleDepth depth tree = 0 := (angleDepth_comma htree.1).trans htree.2
      rw [chunksFrom_comma htree, chunksFrom, List.getLast?_cons_cons] at h
      obtain rfl | ⟨before, comma, rfl, hcomma⟩ := ih 0 h
      · exact ⟨[], tree, rfl, htree⟩
      · refine ⟨tree :: before, comma, rfl, outerComma_cons.2 ?_⟩
        rwa [hdepth]
    · rw [chunksFrom_other htree] at h
      have hrest : (chunksFrom (angleDepth depth tree) rest).getLast? = some [] ∧ rest ≠ [] := by
        cases hchunks : (commaChunks (angleDepth depth tree) rest).2 with
        | nil =>
          rw [hchunks, List.getLast?_singleton] at h
          cases h
        | cons next chunks =>
          rw [hchunks, List.getLast?_cons_cons] at h
          rw [chunksFrom, hchunks, List.getLast?_cons_cons]
          refine ⟨h, ?_⟩
          rintro rfl
          cases hchunks
      obtain ⟨before, comma, rfl, hcomma⟩ := (ih _ hrest.1).resolve_left hrest.2
      exact ⟨tree :: before, comma, rfl, outerComma_cons.2 hcomma⟩

end

/-! ### Lists of chunks -/

section
variable {trees front : List TokenTree} {comma : TokenTree}

theorem splitCommas_eq (trees : List TokenTree) :
    splitCommas trees = dropEmptyLast (chunksFrom 0 trees) := rfl

/-- A comma at the end adds no chunk. -/
theorem splitCommas_of_endsWithComma (h : OuterComma 0 front comma) :
    splitCommas (front ++ [comma]) = chunksFrom 0 front := by
  rw [splitCommas_eq, chunksFrom_append_comma h, chunksFrom_nil, dropEmptyLast,
    List.getLast?_concat]
  exact List.dropLast_concat

theorem splitCommas_of_not_endsWithComma (hne : trees ≠ []) (h : ¬EndsWithComma 0 trees) :
    splitCommas trees = chunksFrom 0 trees := by
  rw [splitCommas_eq, dropEmptyLast]
  split
  · rename_i hlast
    exact absurd (getLast?_chunksFrom 0 trees hlast) (not_or.2 ⟨hne, h⟩)
  · rfl

structure SplitAtCommas (trees : List TokenTree) (chunks : List (List TokenTree)) : Prop where
  /-- With commas between them, and one at the end if the list ends with one outside of brackets,
  they make up the list. -/
  joined : ∃ (commas : List TokenTree) (ending : Option TokenTree),
    (∀ comma ∈ commas ++ ending.toList, comma.isPunct "," = true) ∧
      commas.length = chunks.length - 1 ∧ joinWith chunks commas ++ ending.toList = trees ∧
      (ending.isSome ↔ EndsWithComma 0 trees)
  /-- They have no comma outside of the brackets that they open. -/
  whole : ∀ chunk ∈ chunks, ∀ before comma after, chunk = before ++ comma :: after →
    ¬OuterComma 0 before comma
  /-- The last is empty for a single comma or behind two of them at the end only. -/
  last : chunks.getLast? = some [] →
    (∃ comma : TokenTree, trees = [comma] ∧ comma.isPunct "," = true) ∨
      ∃ before first second, trees = before ++ [first, second] ∧ OuterComma 0 before first ∧
        OuterComma 0 (before ++ [first]) second

theorem splitAtCommas_of_endsWithComma (h : OuterComma 0 front comma) :
    SplitAtCommas (front ++ [comma]) (splitCommas (front ++ [comma])) := by
  rw [splitCommas_of_endsWithComma h]
  refine ⟨?_, fun chunk hchunk before c after heq => not_outerComma_chunksFrom hchunk heq,
    fun hlast => ?_⟩
  · obtain ⟨commas, hcommas, hlength, hjoined⟩ := exists_joinWith_chunksFrom 0 front
    refine ⟨commas, some comma, List.forall_mem_append.2 ⟨hcommas, ?_⟩, by omega, ?_, ?_⟩
    · exact List.forall_mem_singleton.2 h.1
    · rw [hjoined]
      rfl
    · exact iff_of_true rfl ⟨front, comma, rfl, h⟩
  · obtain rfl | ⟨before, first, rfl, hfirst⟩ := getLast?_chunksFrom 0 front hlast
    · exact .inl ⟨comma, rfl, h.1⟩
    · exact .inr ⟨before, first, comma, by rw [List.append_assoc]; rfl, hfirst, h⟩

theorem splitAtCommas_of_not_endsWithComma (hne : trees ≠ []) (h : ¬EndsWithComma 0 trees) :
    SplitAtCommas trees (splitCommas trees) := by
  rw [splitCommas_of_not_endsWithComma hne h]
  refine ⟨?_, fun chunk hchunk before c after heq => not_outerComma_chunksFrom hchunk heq,
    fun hlast => absurd (getLast?_chunksFrom 0 trees hlast) (not_or.2 ⟨hne, h⟩)⟩
  obtain ⟨commas, hcommas, hlength, hjoined⟩ := exists_joinWith_chunksFrom 0 trees
  refine ⟨commas, none, ?_, by omega, ?_, iff_of_false Bool.false_ne_true h⟩
  · rwa [Option.toList_none, List.append_nil]
  · rw [Option.toList_none, List.append_nil, hjoined]

theorem splitAtCommas_splitCommas (trees : List TokenTree) :
    SplitAtCommas trees (splitCommas trees) := by
  by_cases h : EndsWithComma 0 trees
  · obtain ⟨front, comma, rfl, hcomma⟩ := h
    exact splitAtCommas_of_endsWithComma hcomma
  · by_cases hne : trees = []
    · subst hne
      exact ⟨⟨[], none, List.forall_mem_nil _, rfl, rfl, iff_of_false Bool.false_ne_true h⟩,
        List.forall_mem_nil _, nofun⟩
    · exact splitAtCommas_of_not_endsWithComma hne h

end

/-! ### Brackets that are open -/

def opening (trees : List TokenTree) : Nat := trees.countP (·.isPunct "<")

def closing (trees : List TokenTree) : Nat := trees.countP (·.isPunct ">")

/-- So many brackets are open before the trees that at no place among them all are closed. -/
def StaysOpen (depth : Nat) (trees : List TokenTree) : Prop :=
  ∀ front, front <+: trees → closing front < depth + opening front

section
variable {depth : Nat} {tree : TokenTree} {trees front rest angle before : List TokenTree}

theorem opening_cons (tree : TokenTree) (trees : List TokenTree) :
    opening (tree :: trees) = opening [tree] + opening trees := by
  rw [opening, opening, opening, ← List.countP_append, List.singleton_append]

theorem closing_cons (tree : TokenTree) (trees : List TokenTree) :
    closing (tree :: trees) = closing [tree] + closing trees := by
  rw [closing, closing, closing, ← List.countP_append, List.singleton_append]

theorem opening_of_open (h : tree.isPunct "<" = true) :
    opening [tree] = 1 ∧ closing [tree] = 0 := by
  simp [opening, closing, h, isPunct_eq_false h]

/-- One tree changes the count as it should, unless there is nothing left for it to close. -/
theorem angleDepth_add_closing (tree : TokenTree) (h : 0 < depth ∨ tree.isPunct ">" = false) :
    angleDepth depth tree + closing [tree] = depth + opening [tree] := by
  by_cases hopen : tree.isPunct "<" = true
  · rw [angleDepth_opening _ hopen, (opening_of_open hopen).1, (opening_of_open hopen).2]
  · have hopen := Bool.eq_false_iff.2 hopen
    by_cases hclose : tree.isPunct ">" = true
    · have hdepth : 0 < depth := h.resolve_right fun hfalse => Bool.false_ne_true (hfalse ▸ hclose)
      rw [angleDepth_closing _ hclose]
      simp only [opening, closing, List.countP_singleton, hopen, hclose, Bool.false_eq_true,
        ↓reduceIte]
      omega
    · have hclose := Bool.eq_false_iff.2 hclose
      rw [angleDepth_plain _ hopen hclose]
      simp [opening, closing, hopen, hclose]

theorem staysOpen_nil : StaysOpen depth [] ↔ 0 < depth := by
  simp [StaysOpen, opening, closing]

theorem StaysOpen.pos (h : StaysOpen depth trees) : 0 < depth := by
  simpa [opening, closing] using h [] List.nil_prefix

theorem staysOpen_cons (hdepth : 0 < depth) :
    StaysOpen depth (tree :: trees) ↔ StaysOpen (angleDepth depth tree) trees := by
  have hcount := angleDepth_add_closing tree (.inl hdepth)
  constructor
  · intro h front hfront
    have hlonger := h (tree :: front) ((List.prefix_cons_inj tree).2 hfront)
    rw [opening_cons, closing_cons] at hlonger
    omega
  · intro h front hfront
    obtain rfl | ⟨shorter, rfl, hshorter⟩ := List.prefix_cons_iff.1 hfront
    · exact hdepth
    · have hshorter := h shorter hshorter
      rw [opening_cons, closing_cons]
      omega

/-- The search for the end of an angle list fails on trees that leave brackets open. -/
theorem throughAngle_eq_none_iff (hdepth : 0 < depth) :
    throughAngle depth trees = none ↔ StaysOpen depth trees := by
  induction trees generalizing depth with
  | nil => exact iff_of_true rfl (staysOpen_nil.2 hdepth)
  | cons tree rest ih =>
    rw [throughAngle, staysOpen_cons hdepth]
    by_cases hzero : angleDepth depth tree = 0
    · rw [if_pos hzero, hzero]
      exact iff_of_false (Option.some_ne_none _) fun h => absurd h.pos (Nat.lt_irrefl 0)
    · rw [if_neg hzero, Option.map_eq_none_iff, ih (Nat.pos_of_ne_zero hzero)]

/-- It ends at the first tree that leaves none of them open. -/
theorem throughAngle_eq_some (hdepth : 0 < depth)
    (h : throughAngle depth trees = some (angle, rest)) :
    trees = angle ++ rest ∧ angle ≠ [] ∧ closing angle = depth + opening angle ∧
      StaysOpen depth angle.dropLast := by
  induction trees generalizing depth angle with
  | nil => cases h
  | cons tree trees ih =>
    have hcount := angleDepth_add_closing tree (.inl hdepth)
    rw [throughAngle] at h
    by_cases hzero : angleDepth depth tree = 0
    · rw [if_pos hzero] at h
      cases h
      refine ⟨rfl, List.cons_ne_nil _ _, by omega, ?_⟩
      rw [List.dropLast_singleton]
      exact staysOpen_nil.2 hdepth
    · rw [if_neg hzero] at h
      obtain ⟨⟨inner, after⟩, hinner, heq⟩ := Option.map_eq_some_iff.1 h
      obtain ⟨rfl, rfl⟩ := Prod.mk.inj heq
      obtain ⟨rfl, hne, hclosed, hopen⟩ := ih (Nat.pos_of_ne_zero hzero) hinner
      refine ⟨rfl, List.cons_ne_nil _ _, ?_, ?_⟩
      · dsimp only at hclosed ⊢
        rw [opening_cons, closing_cons]
        omega
      · rw [List.dropLast_cons_of_ne_nil hne]
        exact (staysOpen_cons hdepth).2 hopen

/-- The count that is never below zero is the exact one where no place closes too many. -/
theorem foldl_angleDepth (h : ∀ front, front <+: trees → closing front ≤ depth + opening front) :
    trees.foldl angleDepth depth + closing trees = depth + opening trees := by
  induction trees generalizing depth with
  | nil => rfl
  | cons tree rest ih =>
    have hfirst := h [tree] ((List.prefix_cons_inj tree).2 List.nil_prefix)
    -- Only a closing bracket with none open before it would be held at zero.
    have hstep : 0 < depth ∨ tree.isPunct ">" = false := by
      by_cases hclose : tree.isPunct ">" = true
      · have hopen : tree.isPunct "<" = false := isPunct_eq_false hclose (by decide)
        simp only [opening, closing, List.countP_singleton, hopen, hclose, Bool.false_eq_true,
          ↓reduceIte] at hfirst
        omega
      · exact .inr (Bool.eq_false_iff.2 hclose)
    have hcount := angleDepth_add_closing tree hstep
    have hrest : rest.foldl angleDepth (angleDepth depth tree) + closing rest =
        angleDepth depth tree + opening rest := ih fun front hfront => by
      have hlonger := h (tree :: front) ((List.prefix_cons_inj tree).2 hfront)
      rw [opening_cons, closing_cons] at hlonger
      omega
    rw [List.foldl_cons, opening_cons, closing_cons]
    omega

/-- Cutting looks at the places of the list only. -/
theorem cutWhere_congr {cut cut' : List TokenTree → TokenTree → Bool}
    (h : ∀ front tree, front ++ [tree] <+: before ++ trees → before.length ≤ front.length →
      cut front tree = cut' front tree) :
    cutWhere cut before trees = cutWhere cut' before trees := by
  induction trees generalizing before with
  | nil => rfl
  | cons tree rest ih =>
    have hhere := h before tree (by simp) (Nat.le_refl _)
    have hrest : cutWhere cut (before ++ [tree]) rest = cutWhere cut' (before ++ [tree]) rest :=
      ih fun front other hfront hlength =>
        h front other (by simpa using hfront) (by simp at hlength; omega)
    rw [cutWhere, cutWhere, hhere, hrest]

end

/-! ### The list that an opening bracket begins -/

/-- The shortest part at the front in which as many angle brackets close as open. -/
structure ShortestBalanced (angle trees : List TokenTree) : Prop where
  front : angle <+: trees
  ne_nil : angle ≠ []
  balanced : opening angle = closing angle
  shortest : ∀ other, other <+: trees → other ≠ [] → opening other = closing other →
    angle.length ≤ other.length

/-- A comma of an angle list that has the outer brackets around it and no others. -/
def InnerComma (angle before : List TokenTree) (tree : TokenTree) : Prop :=
  tree.isPunct "," = true ∧
    opening (angle.take 1 ++ before) = closing (angle.take 1 ++ before) + 1

instance (angle before : List TokenTree) (tree : TokenTree) :
    Decidable (InnerComma angle before tree) :=
  inferInstanceAs (Decidable (_ ∧ _))

section
variable {tree : TokenTree} {trees rest inner after angle other : List TokenTree}

theorem ShortestBalanced.unique (h : ShortestBalanced angle trees)
    (h' : ShortestBalanced other trees) : angle = other := by
  have hle := h.shortest other h'.front h'.ne_nil h'.balanced
  have hge := h'.shortest angle h.front h.ne_nil h.balanced
  exact (List.prefix_of_prefix_length_le h.front h'.front hle).eq_of_length
    (Nat.le_antisymm hle hge)

/-- Behind its first bracket an angle list runs to where the search ends. -/
theorem shortestBalanced_of_throughAngle (hopen : tree.isPunct "<" = true)
    (h : throughAngle 1 rest = some (inner, after)) :
    ShortestBalanced (tree :: inner) (tree :: rest) := by
  obtain ⟨rfl, hne, hclosed, hstays⟩ := throughAngle_eq_some Nat.one_pos h
  obtain ⟨hone, hzero⟩ := opening_of_open hopen
  refine ⟨(List.prefix_cons_inj tree).2 (List.prefix_append _ _), List.cons_ne_nil _ _, ?_,
    fun other hother hother_ne hequal => ?_⟩
  · rw [opening_cons, closing_cons, hone, hzero]
    omega
  · obtain rfl | ⟨front, rfl, hfront⟩ := List.prefix_cons_iff.1 hother
    · exact absurd rfl hother_ne
    by_contra hshort
    simp only [List.length_cons] at hshort
    -- A shorter part ends before the last closing bracket, where one is still open.
    have hinside : front <+: inner.dropLast :=
      List.prefix_of_prefix_length_le hfront ((List.dropLast_prefix inner).trans
        (List.prefix_append _ _)) (by rw [List.length_dropLast]; omega)
    have hlt := hstays front hinside
    rw [opening_cons, closing_cons, hone, hzero] at hequal
    omega

theorem not_shortestBalanced_of_throughAngle (hopen : tree.isPunct "<" = true)
    (h : throughAngle 1 rest = none) : ¬∃ angle, ShortestBalanced angle (tree :: rest) := by
  rintro ⟨angle, hfront, hne, hequal, _⟩
  obtain ⟨hone, hzero⟩ := opening_of_open hopen
  obtain rfl | ⟨inner, rfl, hinner⟩ := List.prefix_cons_iff.1 hfront
  · exact absurd rfl hne
  have hlt := (throughAngle_eq_none_iff Nat.one_pos).1 h inner hinner
  rw [opening_cons, closing_cons, hone, hzero] at hequal
  omega

/-- Inside of the list the outer commas are those with one bracket around them. -/
theorem splitCommas_inner (hopen : tree.isPunct "<" = true)
    (h : throughAngle 1 rest = some (inner, after)) :
    splitCommas (angleInner (tree :: inner)) =
      dropEmptyLast (cutWhere (fun before comma => decide (InnerComma (tree :: inner) before comma))
        [] (angleInner (tree :: inner))) := by
  obtain ⟨rfl, hne, hclosed, hstays⟩ := throughAngle_eq_some Nat.one_pos h
  obtain ⟨hone, hzero⟩ := opening_of_open hopen
  have hinner : angleInner (tree :: inner) = inner.dropLast := rfl
  rw [splitCommas_eq, hinner]
  refine congrArg dropEmptyLast ((chunksFrom_eq_cutWhere [] _).trans (cutWhere_congr ?_))
  intro front comma hfront _
  have hcount : front.foldl angleDepth 0 + closing front = 0 + opening front :=
    foldl_angleDepth fun shorter hshorter => by
      have hlt := hstays shorter
        ((hshorter.trans (List.prefix_append front [comma])).trans hfront)
      omega
  have hsame : OuterComma 0 front comma ↔ InnerComma (tree :: inner) front comma := by
    refine and_congr_right fun _ => ?_
    rw [List.take_succ_cons, List.take_zero, List.singleton_append, opening_cons, closing_cons,
      hone, hzero]
    omega
  exact decide_eq_decide.2 hsame

end

/-! ### Reading it -/

section
variable {t : Token.Mark "<"} {past rest inner after : List TokenTree} {anchor : Option Location}

theorem exists_mark_of_sees {c : Cursor} {text : String} (h : c.sees (·.isPunct text) 0 = true) :
    ∃ (t : Token.Mark text) (rest : List TokenTree),
      c = ⟨c.past, .token t.1 :: rest, c.anchor⟩ := by
  obtain ⟨past, trees, anchor⟩ := c
  rw [Cursor.sees, Cursor.peek] at h
  cases trees with
  | nil => cases h
  | cons tree rest =>
    cases tree with
    | token t =>
      have ht : (token? (·.isPunct text) (token t)).isSome = true := h
      rw [token?] at ht
      exact ⟨⟨t, by simpa using ht⟩, rest, rfl⟩
    | group => cases h

/-- Behind its opening bracket the list is looked for among the trees that are left. -/
theorem expectPunct_bind_get {α : Type} (x : Token → Cursor → Reader α) :
    (do let opening ← Reader.expectPunct "<"; x opening (← get))
        ⟨past, .token t.1 :: rest, anchor⟩ =
      x t.1 ⟨.token t.1 :: past, rest, anchor⟩ ⟨.token t.1 :: past, rest, anchor⟩ :=
  Reader.bind_of_ok (Reader.yields_expectPunct t rest past anchor)

theorem angleList_of_some (h : throughAngle 1 rest = some (inner, after)) :
    Reader.angleList ⟨past, .token t.1 :: rest, anchor⟩ =
      .ok (.token t.1 :: inner)
        ((⟨past, .token t.1 :: rest, anchor⟩ : Cursor).skip (inner.length + 1)) := by
  rw [Reader.angleList, expectPunct_bind_get, h]
  change EStateM.Result.ok _ ((⟨.token t.1 :: past, rest, anchor⟩ : Cursor).skip inner.length) = _
  simp [Cursor.skip]

theorem angleList_of_none (h : throughAngle 1 rest = none) :
    ∃ f c', Reader.angleList ⟨past, .token t.1 :: rest, anchor⟩ = .error f c' := by
  rw [Reader.angleList, expectPunct_bind_get, h]
  exact ⟨_, _, rfl⟩

end

/-- A list is cut at its commas outside of angle brackets, and what the chunks are. At an opening
bracket the reader takes the shortest part in which the brackets balance and stands behind it, and
it fails where there is no such part; what is between the outer brackets of the part is cut at the
commas that have no other brackets around them. -/
theorem comma_and_angle_lists :
    (∀ trees,
      splitCommas trees =
          dropEmptyLast (cutWhere (fun before tree => decide (OuterComma 0 before tree)) [] trees) ∧
        SplitAtCommas trees (splitCommas trees)) ∧
    ∀ c : Cursor, c.sees (·.isPunct "<") 0 = true →
      (∀ angle c', Reader.angleList c = .ok angle c' ↔
        ShortestBalanced angle c.rest ∧ c' = c.skip angle.length) ∧
      ((∃ f c', Reader.angleList c = .error f c') ↔ ¬∃ angle, ShortestBalanced angle c.rest) ∧
      ∀ angle c', Reader.angleList c = .ok angle c' →
        splitCommas (angleInner angle) =
          dropEmptyLast (cutWhere (fun before tree => decide (InnerComma angle before tree)) []
            (angleInner angle)) := by
  refine ⟨fun trees => ⟨?_, splitAtCommas_splitCommas trees⟩, fun c hsees => ?_⟩
  · exact congrArg dropEmptyLast (chunksFrom_eq_cutWhere [] trees)
  obtain ⟨t, rest, hc⟩ := exists_mark_of_sees hsees
  rw [hc]
  have hopen : isPunct "<" (.token t.1) = true := isPunct_mark t
  cases hthrough : throughAngle 1 rest with
  | none =>
    obtain ⟨f, c₁, herror⟩ := angleList_of_none hthrough
    have hnone := not_shortestBalanced_of_throughAngle hopen hthrough
    rw [herror]
    exact ⟨fun angle c' => iff_of_false nofun fun h => hnone ⟨angle, h.1⟩,
      iff_of_true ⟨f, c₁, rfl⟩ hnone, nofun⟩
  | some split =>
    obtain ⟨inner, after⟩ := split
    have hshortest := shortestBalanced_of_throughAngle hopen hthrough
    rw [angleList_of_some hthrough]
    refine ⟨fun angle c' => ⟨fun h => ?_, fun ⟨hangle, hskip⟩ => ?_⟩,
      iff_of_false nofun fun h => h ⟨_, hshortest⟩, fun angle c' h => ?_⟩
    · cases h
      exact ⟨hshortest, rfl⟩
    · obtain rfl := hshortest.unique hangle
      rw [hskip]
      rfl
    · cases h
      exact splitCommas_inner hopen hthrough

/-- A list in a list, with one more closing bracket and a comma behind it. -/
theorem comma_and_angle_lists_nested :
    let mark (text : String) : TokenTree := .token ⟨.punct, text, ⟨0, 1, 1⟩, ⟨1, 1, 2⟩⟩
    let name (text : String) : TokenTree := .token ⟨.ident, text, ⟨0, 1, 1⟩, ⟨1, 1, 2⟩⟩
    let pair := [name "A", mark "<", name "B", mark ",", name "C", mark ">"]
    let angle := mark "<" :: (pair ++ [mark ",", name "D", mark ">"])
    let c : Cursor := ⟨[], angle ++ [mark ">", mark ","], none⟩
    c.sees (·.isPunct "<") 0 = true ∧ Reader.angleList c = .ok angle (c.skip angle.length) ∧
      ShortestBalanced angle c.rest ∧
      splitCommas (angleInner angle) = [pair, [name "D"]] ∧
      dropEmptyLast (cutWhere (fun before tree => decide (InnerComma angle before tree)) []
        (angleInner angle)) = [pair, [name "D"]] := by
  intro mark name pair angle c
  have hsees : c.sees (·.isPunct "<") 0 = true := by decide
  have hread : Reader.angleList c = .ok angle (c.skip angle.length) := by rfl
  obtain ⟨hok, _, hinner⟩ := comma_and_angle_lists.2 c hsees
  have hchunks : splitCommas (angleInner angle) = [pair, [name "D"]] := by rfl
  exact ⟨hsees, hread, ((hok angle _).1 hread).1, hchunks, (hinner angle _ hread) ▸ hchunks⟩

end LuaBindings.TokenTree
