import LuaBindings.Proofs.TokenTree.Tokens
import LuaBindings.TokenTree.Commas

/-!
# Lists with balanced angle brackets

Two readers count angle brackets: one looks for the end of an angle list, the other
for the commas of a list. On trees whose brackets are balanced they agree. The first
passes over them and ends at the bracket behind; the second cuts at a comma behind
them if they have none of their own outside of the brackets.
-/

set_option autoImplicit false

namespace LuaBindings.TokenTree

/-- Each opening angle bracket has its closing one, and no closing one stands alone. -/
inductive Balanced : List TokenTree → Prop where
  | nil : Balanced []
  | plain {tree : TokenTree} {trees : List TokenTree} (hopen : tree.isPunct "<" = false)
      (hclose : tree.isPunct ">" = false) (h : Balanced trees) : Balanced (tree :: trees)
  | angle {opening closing : TokenTree} {inner rest : List TokenTree}
      (hopen : opening.isPunct "<" = true) (hinner : Balanced inner)
      (hclose : closing.isPunct ">" = true) (hrest : Balanced rest) :
      Balanced (opening :: (inner ++ closing :: rest))

/-- Angle brackets are balanced, and commas stand inside of them only. -/
inductive Whole : List TokenTree → Prop where
  | nil : Whole []
  | plain {tree : TokenTree} {trees : List TokenTree} (hopen : tree.isPunct "<" = false)
      (hclose : tree.isPunct ">" = false) (hcomma : tree.isPunct "," = false)
      (h : Whole trees) : Whole (tree :: trees)
  | angle {opening closing : TokenTree} {inner rest : List TokenTree}
      (hopen : opening.isPunct "<" = true) (hinner : Balanced inner)
      (hclose : closing.isPunct ">" = true) (hrest : Whole rest) :
      Whole (opening :: (inner ++ closing :: rest))

/-! ### One tree -/

theorem angleDepth_plain {tree : TokenTree} (depth : Nat) (hopen : tree.isPunct "<" = false)
    (hclose : tree.isPunct ">" = false) : angleDepth depth tree = depth := by
  simp [angleDepth, hopen, hclose]

theorem angleDepth_opening {tree : TokenTree} (depth : Nat) (h : tree.isPunct "<" = true) :
    angleDepth depth tree = depth + 1 := by
  rw [angleDepth, if_pos h]

theorem angleDepth_closing {tree : TokenTree} (depth : Nat) (h : tree.isPunct ">" = true) :
    angleDepth depth tree = depth - 1 := by
  rw [angleDepth, isPunct_eq_false h (by decide), if_neg Bool.false_ne_true, if_pos h]

/-! ### Putting lists together -/

variable {xs ys : List TokenTree}

theorem Balanced.append (hx : Balanced xs) (hy : Balanced ys) : Balanced (xs ++ ys) := by
  induction hx with
  | nil => exact hy
  | plain hopen hclose _ ih => exact .plain hopen hclose ih
  | angle hopen hinner hclose _ _ ih =>
    rw [List.cons_append, List.append_assoc, List.cons_append]
    exact .angle hopen hinner hclose ih

theorem Whole.append (hx : Whole xs) (hy : Whole ys) : Whole (xs ++ ys) := by
  induction hx with
  | nil => exact hy
  | plain hopen hclose hcomma _ ih => exact .plain hopen hclose hcomma ih
  | angle hopen hinner hclose _ ih =>
    rw [List.cons_append, List.append_assoc, List.cons_append]
    exact .angle hopen hinner hclose ih

theorem Whole.of_forall (h : ∀ tree ∈ xs, tree.isPunct "<" = false ∧ tree.isPunct ">" = false ∧
    tree.isPunct "," = false) : Whole xs := by
  induction xs with
  | nil => exact .nil
  | cons tree xs ih =>
    obtain ⟨hopen, hclose, hcomma⟩ := h tree List.mem_cons_self
    exact .plain hopen hclose hcomma (ih fun t ht => h t (List.mem_cons_of_mem _ ht))

theorem Whole.balanced (h : Whole xs) : Balanced xs := by
  induction h with
  | nil => exact .nil
  | plain hopen hclose _ _ ih => exact .plain hopen hclose ih
  | angle hopen hinner hclose _ ih => exact .angle hopen hinner hclose ih

/-! ### Trees that divide nothing -/

/-- Neither an angle bracket nor a mark that divides lists of types or arguments. -/
def Inert (tree : TokenTree) : Prop := ∀ text ∈ ["<", ">", ",", "="], tree.isPunct text = false

theorem Inert.of_kind {t : Token} (h : t.kind ≠ .punct) : Inert (.token t) :=
  fun text _ => isPunct_eq_false_of_kind h text

theorem Inert.of_mark {text : String} (m : Token.Mark text) (h : text ∉ ["<", ">", ",", "="]) :
    Inert (.token m.1) := by
  intro other hother
  refine isPunct_eq_false (isPunct_mark m) ?_
  rintro rfl
  exact h hother

theorem Inert.of_group (d : Delimiter) (opener closer : Token) (inner : List TokenTree) :
    Inert (.group d opener inner closer) := fun _ _ => rfl

theorem Inert.of_maybe {p : Token → Prop} (h : ∀ t, p t → Inert (.token t))
    (t : Option { t : Token // p t }) : ∀ tree ∈ maybe t, Inert tree := by
  intro tree htree
  cases t with
  | none => simp [TokenTree.maybe] at htree
  | some t =>
    simp only [TokenTree.maybe, Option.map_some, Option.toList_some, List.mem_singleton] at htree
    rw [htree]
    exact h t.1 t.2

theorem Inert.whole {xs : List TokenTree} (h : ∀ tree ∈ xs, Inert tree) : Whole xs :=
  .of_forall fun tree htree =>
    ⟨h tree htree _ (by simp), h tree htree _ (by simp), h tree htree _ (by simp)⟩

theorem inert_lifetime (t : Option (Token.OfKind .lifetime)) : ∀ tree ∈ maybe t, Inert tree :=
  Inert.of_maybe (fun _ h => .of_kind (by rw [h]; decide)) t

theorem inert_mut (w : Option (Token.Word "mut")) : ∀ tree ∈ maybe w, Inert tree :=
  Inert.of_maybe (fun t h => .of_kind (by rw [Token.Word.kind_eq ⟨t, h⟩]; decide)) w

theorem inert_colons (m : Option (Token.Mark "::")) : ∀ tree ∈ maybe m, Inert tree :=
  Inert.of_maybe (fun t h => .of_mark ⟨t, h⟩ (by decide)) m

theorem Inert.cons_whole {tree : TokenTree} {xs : List TokenTree} (h : Inert tree)
    (hx : Whole xs) : Whole (tree :: xs) := by
  have hone : Whole [tree] := Inert.whole (by simpa using h)
  exact hone.append hx

/-! ### The end of an angle list -/

theorem Balanced.throughAngle (h : Balanced xs) (depth : Nat) (rest : List TokenTree) :
    TokenTree.throughAngle (depth + 1) (xs ++ rest) =
      (TokenTree.throughAngle (depth + 1) rest).map fun split => (xs ++ split.1, split.2) := by
  induction h generalizing depth rest with
  | nil => simp
  | plain hopen hclose _ ih =>
    rw [List.cons_append, TokenTree.throughAngle, angleDepth_plain _ hopen hclose,
      if_neg (Nat.succ_ne_zero _), ih, Option.map_map]
    rfl
  | angle hopen _ hclose _ hinner hrest =>
    rw [List.cons_append, List.append_assoc, List.cons_append, TokenTree.throughAngle,
      angleDepth_opening _ hopen, if_neg (Nat.succ_ne_zero _), hinner, TokenTree.throughAngle,
      angleDepth_closing _ hclose, Nat.add_sub_cancel, if_neg (Nat.succ_ne_zero _), hrest]
    simp [Function.comp_def]

/-- An angle list ends at the bracket that closes it. -/
theorem Balanced.throughAngle_closing (h : Balanced xs) {closing : TokenTree}
    (hclose : closing.isPunct ">" = true) (rest : List TokenTree) :
    TokenTree.throughAngle 1 (xs ++ closing :: rest) = some (xs ++ [closing], rest) := by
  rw [h.throughAngle 0, TokenTree.throughAngle, angleDepth_closing _ hclose, if_pos rfl]
  rfl

theorem angleInner_brackets (opening closing : TokenTree) (inner : List TokenTree) :
    angleInner (opening :: (inner ++ [closing])) = inner := by
  rw [angleInner, List.drop_one, List.tail_cons, List.dropLast_concat]

/-! ### The commas of a list -/

theorem Balanced.commaChunks (h : Balanced xs) (depth : Nat) (rest : List TokenTree) :
    TokenTree.commaChunks (depth + 1) (xs ++ rest) =
      (xs ++ (TokenTree.commaChunks (depth + 1) rest).1,
        (TokenTree.commaChunks (depth + 1) rest).2) := by
  have hno {tree : TokenTree} (d : Nat) : ¬(tree.isPunct "," = true ∧ d + 1 = 0) := by simp
  induction h generalizing depth rest with
  | nil => rfl
  | plain hopen hclose _ ih =>
    rw [List.cons_append, TokenTree.commaChunks, if_neg (hno _), angleDepth_plain _ hopen hclose, ih]
    rfl
  | angle hopen _ hclose _ hinner hrest =>
    rw [List.cons_append, List.append_assoc, List.cons_append, TokenTree.commaChunks,
      if_neg (hno _), angleDepth_opening _ hopen, hinner, TokenTree.commaChunks, if_neg (hno _),
      angleDepth_closing _ hclose, Nat.add_sub_cancel, hrest]
    simp

/-- No comma cuts the trees and no bracket is open behind them. -/
def Uncut (xs : List TokenTree) : Prop :=
  ∀ rest, TokenTree.commaChunks 0 (xs ++ rest) =
    (xs ++ (TokenTree.commaChunks 0 rest).1, (TokenTree.commaChunks 0 rest).2)

theorem Whole.uncut (h : Whole xs) : Uncut xs := by
  intro rest
  induction h generalizing rest with
  | nil => rfl
  | plain hopen hclose hcomma _ ih =>
    rw [List.cons_append, TokenTree.commaChunks, if_neg (by simp [hcomma]),
      angleDepth_plain _ hopen hclose, ih]
    rfl
  | angle hopen hinner hclose _ ih =>
    rw [List.cons_append, List.append_assoc, List.cons_append, TokenTree.commaChunks,
      if_neg (by simp [isPunct_eq_false hopen]), angleDepth_opening _ hopen, hinner.commaChunks,
      TokenTree.commaChunks, if_neg (by simp), angleDepth_closing _ hclose, Nat.add_sub_cancel, ih]
    simp

theorem dropEmptyLast_cons_cons (chunk next : List TokenTree) (chunks : List (List TokenTree)) :
    dropEmptyLast (chunk :: next :: chunks) = chunk :: dropEmptyLast (next :: chunks) := by
  rw [dropEmptyLast, dropEmptyLast, List.getLast?_cons_cons]
  split <;> rfl

theorem splitCommas_nil : splitCommas [] = [] := rfl

theorem uncut_nil : Uncut [] := fun _ => rfl

theorem Uncut.append (hx : Uncut xs) (hy : Uncut ys) : Uncut (xs ++ ys) := by
  intro rest
  rw [List.append_assoc, hx, hy, List.append_assoc]

theorem Uncut.cons {tree : TokenTree} (htree : Whole [tree]) (hx : Uncut xs) :
    Uncut (tree :: xs) :=
  htree.uncut.append hx

/-- The part before a comma outside of the brackets is a chunk of its own. -/
theorem Uncut.splitCommas_comma (h : Uncut xs) {comma : TokenTree}
    (hcomma : comma.isPunct "," = true) (rest : List TokenTree) :
    splitCommas (xs ++ comma :: rest) = xs :: splitCommas rest := by
  rw [splitCommas, h, TokenTree.commaChunks, if_pos ⟨hcomma, rfl⟩]
  change dropEmptyLast ((xs ++ []) :: _ :: _) = _
  rw [List.append_nil, dropEmptyLast_cons_cons]
  rfl

/-- A list without a comma outside of the brackets is one chunk. -/
theorem Uncut.splitCommas_self (h : Uncut xs) (hne : xs ≠ []) : splitCommas xs = [xs] := by
  have hchunks : TokenTree.commaChunks 0 xs = (xs, []) := by
    have := h []
    rwa [List.append_nil, TokenTree.commaChunks, List.append_nil] at this
  rw [splitCommas, hchunks]
  cases xs with
  | nil => exact absurd rfl hne
  | cons tree trees => rfl

theorem Whole.splitCommas_comma (h : Whole xs) {comma : TokenTree}
    (hcomma : comma.isPunct "," = true) (rest : List TokenTree) :
    splitCommas (xs ++ comma :: rest) = xs :: splitCommas rest :=
  h.uncut.splitCommas_comma hcomma rest

theorem Whole.splitCommas_self (h : Whole xs) (hne : xs ≠ []) : splitCommas xs = [xs] :=
  h.uncut.splitCommas_self hne

/-- Parts with commas between them are the chunks of the list. -/
theorem splitCommas_intercalate {comma : TokenTree} (hcomma : comma.isPunct "," = true)
    {parts : List (List TokenTree)} (hparts : ∀ part ∈ parts, Uncut part ∧ part ≠ []) :
    splitCommas ([comma].intercalate parts) = parts := by
  induction parts with
  | nil => rfl
  | cons part parts ih =>
    obtain ⟨⟨huncut, hne⟩, hrest⟩ := List.forall_mem_cons.1 hparts
    cases parts with
    | nil => rw [List.intercalate_singleton, huncut.splitCommas_self hne]
    | cons next parts =>
      rw [List.intercalate_cons_cons, List.append_assoc, List.singleton_append,
        huncut.splitCommas_comma hcomma, ih hrest]

end LuaBindings.TokenTree
