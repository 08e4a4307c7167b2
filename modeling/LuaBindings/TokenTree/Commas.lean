import LuaBindings.TokenTree

/-!
# Comma lists and angle lists

Angle brackets are punctuation, so both kinds of list count them. A comma cuts a
list where no angle bracket is open; a closing one without an opening one counts
for nothing. An angle list runs from an opening angle bracket to the one that
closes it. Every part is made of trees of the whole, so it has no more tokens.
-/

set_option autoImplicit false

namespace LuaBindings.TokenTree

def angleDepth (depth : Nat) (tree : TokenTree) : Nat :=
  if tree.isPunct "<" then depth + 1
  else if tree.isPunct ">" then depth - 1
  else depth

/-- The first chunk and the chunks after it, with `depth` angle brackets open. -/
def commaChunks : Nat → List TokenTree → List TokenTree × List (List TokenTree)
  | _, [] => ([], [])
  | depth, tree :: rest =>
    if tree.isPunct "," ∧ depth = 0 then
      let (chunk, chunks) := commaChunks 0 rest
      ([], chunk :: chunks)
    else
      let (chunk, chunks) := commaChunks (angleDepth depth tree) rest
      (tree :: chunk, chunks)

def dropEmptyLast (chunks : List (List TokenTree)) : List (List TokenTree) :=
  match chunks.getLast? with
  | some [] => chunks.dropLast
  | _ => chunks

/-- The chunks between the commas. An empty last chunk is left out. -/
def splitCommas (trees : List TokenTree) : List (List TokenTree) :=
  let (chunk, chunks) := commaChunks 0 trees
  dropEmptyLast (chunk :: chunks)

/-- The trees up to the closing angle bracket that leaves none of `depth` open, and
the trees after it. -/
def throughAngle (depth : Nat) : List TokenTree → Option (List TokenTree × List TokenTree)
  | [] => none
  | tree :: rest =>
    if angleDepth depth tree = 0 then some ([tree], rest)
    else (throughAngle (angleDepth depth tree) rest).map fun split => (tree :: split.1, split.2)

def angleInner (angle : List TokenTree) : List TokenTree := (angle.drop 1).dropLast

/-- The lifetimes that an angle list of generic parameters declares. -/
def genericLifetimes (generics : List TokenTree) : List String :=
  (splitCommas (angleInner generics)).filterMap fun chunk =>
    (chunk.head?.bind (token? (·.kind == .lifetime))).map Token.text

/-! ### Parts of a list -/

theorem infix_of_mem_commaChunks (depth : Nat) (trees : List TokenTree) :
    (commaChunks depth trees).1 <+: trees ∧ ∀ chunk ∈ (commaChunks depth trees).2, chunk <:+: trees := by
  fun_induction commaChunks depth trees with
  | case1 => simp
  | case2 depth tree rest _ chunk chunks heq ih =>
    rw [heq] at ih
    refine ⟨List.nil_prefix, ?_⟩
    simp only [List.mem_cons, forall_eq_or_imp]
    exact ⟨ih.1.isInfix.trans (List.suffix_cons _ _).isInfix,
      fun c hc => (ih.2 c hc).trans (List.suffix_cons _ _).isInfix⟩
  | case3 depth tree rest _ chunk chunks heq ih =>
    rw [heq] at ih
    exact ⟨(List.prefix_cons_inj tree).2 ih.1,
      fun c hc => (ih.2 c hc).trans (List.suffix_cons _ _).isInfix⟩

/-- A chunk is a part of the list without gaps. -/
theorem infix_of_mem_splitCommas {trees chunk : List TokenTree} (h : chunk ∈ splitCommas trees) :
    chunk <:+: trees := by
  have hall := infix_of_mem_commaChunks 0 trees
  have hmem : chunk ∈ (commaChunks 0 trees).1 :: (commaChunks 0 trees).2 := by
    unfold splitCommas dropEmptyLast at h
    split at h
    rename_i first rest heq
    rw [heq]
    split at h
    · exact (List.dropLast_sublist _).mem h
    · exact h
  rcases List.mem_cons.1 hmem with rfl | hmem
  · exact hall.1.isInfix
  · exact hall.2 _ hmem

theorem sublist_of_mem_splitCommas {trees chunk : List TokenTree} (h : chunk ∈ splitCommas trees) :
    chunk.Sublist trees :=
  (infix_of_mem_splitCommas h).sublist

theorem count_le_of_mem_splitCommas {trees chunk : List TokenTree} (h : chunk ∈ splitCommas trees) :
    count chunk ≤ count trees :=
  count_le_of_sublist (sublist_of_mem_splitCommas h)

theorem throughAngle_append {depth : Nat} {trees angle rest : List TokenTree}
    (h : throughAngle depth trees = some (angle, rest)) : angle ++ rest = trees := by
  induction trees generalizing depth angle rest with
  | nil => simp [throughAngle] at h
  | cons tree trees ih =>
    unfold throughAngle at h
    split at h
    · simp only [Option.some.injEq, Prod.mk.injEq] at h
      simp [← h.1, ← h.2]
    · obtain ⟨⟨inner, tail⟩, hsplit, heq⟩ := Option.map_eq_some_iff.1 h
      simp only [Prod.mk.injEq] at heq
      simp [← heq.1, ← heq.2, ih hsplit]

/-- A chunk of an angle list is smaller than the list. -/
theorem count_lt_of_mem_angle {angle chunk : List TokenTree}
    (h : chunk ∈ splitCommas (angleInner angle)) : count chunk < count angle := by
  match angle with
  | [] => simp [angleInner, splitCommas, commaChunks, dropEmptyLast] at h
  | tree :: trees =>
    have hle := count_le_of_mem_splitCommas h
    have hinner : count (angleInner (tree :: trees)) ≤ count trees :=
      count_le_of_sublist (List.dropLast_sublist _)
    have hlt := count_lt_cons tree trees
    omega

end LuaBindings.TokenTree
