import LuaBindings.Proofs.Token.Renaming
import LuaBindings.Proofs.TokenTree.Rereading

/-!
# Trees under another name of the receiver

A body whose receiver keyword is renamed keeps its groups, its places and its rows, and
what is written for it is read back as the body with the keyword renamed.
-/

set_option autoImplicit false

namespace LuaBindings

namespace TokenTree

/-- The trees have the same groups, and their tokens are related one by one. -/
inductive Aligned (R : Token → Token → Prop) : List TokenTree → List TokenTree → Prop
  | nil : Aligned R [] []
  | token {t u : Token} {xs ys : List TokenTree} : R t u → Aligned R xs ys →
    Aligned R (.token t :: xs) (.token u :: ys)
  | group {d : Delimiter} {opener opener' closer closer' : Token}
    {inner inner' xs ys : List TokenTree} : R opener opener' → Aligned R inner inner' →
    R closer closer' → Aligned R xs ys →
    Aligned R (.group d opener inner closer :: xs) (.group d opener' inner' closer' :: ys)

theorem Aligned.mono {R S : Token → Token → Prop} {xs ys : List TokenTree}
    (h : Aligned R xs ys) (hRS : ∀ t u, R t u → S t u) : Aligned S xs ys := by
  induction h with
  | nil => exact .nil
  | token ht _ ih => exact .token (hRS _ _ ht) ih
  | group ho _ hc _ ihinner ihrest => exact .group (hRS _ _ ho) ihinner (hRS _ _ hc) ihrest

/-- Trees aligned with trees that are aligned with others. -/
theorem Aligned.same {R : Token → Token → Prop} {xs ys zs : List TokenTree}
    (h : Aligned R xs ys) (hsame : Same ys zs) :
    Aligned (fun t v => ∃ u, R t u ∧ v.bare = u.bare) xs zs := by
  induction h generalizing zs with
  | nil =>
    cases hsame
    exact .nil
  | token ht _ ih =>
    cases hsame with
    | token hu hrest => exact .token ⟨_, ht, hu.symm⟩ (ih hrest)
  | group ho _ hc _ ihinner ihrest =>
    cases hsame with
    | group ho' hinner hc' hrest =>
      exact .group ⟨_, ho, ho'.symm⟩ (ihinner hinner) ⟨_, hc, hc'.symm⟩ (ihrest hrest)

theorem Aligned.flatten_eq {f : Token → Token} {xs ys : List TokenTree}
    (h : Aligned (fun t u => u = f t) xs ys) : flatten ys = (flatten xs).map f := by
  induction h with
  | nil => rw [flatten_nil, List.map_nil]
  | token ht _ ih => rw [flatten_token_cons, flatten_token_cons, List.map_cons, ih, ht]
  | group ho _ hc _ ihinner ihrest =>
    rw [flatten_group_cons, flatten_group_cons, List.map_cons, List.map_append, List.map_cons,
      ihinner, ihrest, ho, hc]

theorem Aligned.formed {R : Token → Token → Prop} (hkind : ∀ t u, R t u → u.kind = t.kind)
    {xs ys : List TokenTree} (h : Aligned R xs ys) (hxs : Formed xs) : Formed ys := by
  induction h with
  | nil => exact .nil
  | token ht _ ih =>
    cases hxs with
    | token hplain hrest => exact .token (hkind _ _ ht ▸ hplain) (ih hrest)
  | group ho _ hc _ ihinner ihrest =>
    cases hxs with
    | group hopen hinner hclose hrest =>
      exact .group ((hkind _ _ ho).trans hopen) (ihinner hinner) ((hkind _ _ hc).trans hclose)
        (ihrest hrest)

end TokenTree

namespace Layout

def written (indentation : Nat) (row : List Token) : String :=
  String.ofList (List.replicate indentation ' ') ++ inlineTokens row

theorem written_toList (indentation : Nat) (row : List Token) :
    (written indentation row).toList =
      List.replicate indentation ' ' ++ (inlineTokens row).toList := by
  rw [written, String.toList_append, String.toList_ofList]

/-! Rows, columns and the order of tokens only depend on where tokens stand. -/

section
variable {f : Token → Token} (hstart : ∀ t, (f t).start = t.start)
  (hstop : ∀ t, (f t).stop = t.stop)

include hstart hstop in
theorem addToRows_map (t : Token) (rows : List (List Token)) :
    addToRows (f t) (rows.map (List.map f)) = (addToRows t rows).map (List.map f) := by
  cases rows with
  | nil => rfl
  | cons row rows =>
    cases row with
    | nil => rfl
    | cons u row =>
      simp only [List.map_cons, addToRows, hstart, hstop]
      split
      · rfl
      · rfl

include hstart hstop in
theorem rows_map (tokens : List Token) :
    rows (tokens.map f) = (rows tokens).map (List.map f) := by
  induction tokens with
  | nil => rfl
  | cons t rest ih => rw [List.map_cons, rows, ih, addToRows_map hstart hstop, rows]

include hstart in
theorem column_map (row : List Token) : column (row.map f) = column row := by
  cases row with
  | nil => rfl
  | cons t row => exact congrArg Location.column (hstart t)

include hstart in
theorem leastColumn_map (rows : List (List Token)) :
    leastColumn (rows.map (List.map f)) = leastColumn rows := by
  induction rows with
  | nil => rfl
  | cons row rows ih =>
    cases rows with
    | nil => exact column_map hstart row
    | cons next rows =>
      calc leastColumn ((row :: next :: rows).map (List.map f))
          = min (column (row.map f)) (leastColumn ((next :: rows).map (List.map f))) := rfl
        _ = min (column row) (leastColumn (next :: rows)) := by rw [column_map hstart, ih]
        _ = leastColumn (row :: next :: rows) := rfl

include hstart hstop in
theorem pairwise_map {tokens : List Token}
    (h : tokens.Pairwise fun a b => a.stop.offset ≤ b.start.offset) :
    (tokens.map f).Pairwise fun a b => a.stop.offset ≤ b.start.offset := by
  rw [List.pairwise_map]
  simpa only [hstart, hstop] using h

end

end Layout

namespace Renaming

open TokenTree

theorem aligned_trees (table : Renaming) : ∀ trees : List TokenTree,
    Aligned (fun t u => u = table.token t) trees (table.trees trees)
  | [] => by
    rw [Renaming.trees]
    exact .nil
  | .token _ :: rest => by
    rw [Renaming.trees, Renaming.tree]
    exact .token rfl (aligned_trees table rest)
  | .group _ _ inner _ :: rest => by
    rw [Renaming.trees, Renaming.tree]
    exact .group rfl (aligned_trees table inner) rfl (aligned_trees table rest)

theorem aligned_receiver (trees : List TokenTree) :
    Aligned (fun t u => u = t.receiverBound) trees (receiver.trees trees) :=
  (aligned_trees receiver trees).mono fun t _ h => h.trans (token_receiver t)

/-- The rows keep their indentation. -/
theorem lines_receiver (trees : List TokenTree) :
    Layout.lines (receiver.trees trees) = (Layout.rows (flatten trees)).map fun row =>
      Layout.written (Layout.column row - Layout.leastColumn (Layout.rows (flatten trees)))
        (row.map Token.receiverBound) := by
  have hrows := Layout.rows_map Token.receiverBound_start Token.receiverBound_stop (flatten trees)
  rw [← (aligned_receiver trees).flatten_eq] at hrows
  simp only [Layout.lines, hrows, Layout.leastColumn_map Token.receiverBound_start, List.map_map]
  refine List.map_congr_left fun row _ => ?_
  simp only [Function.comp, Layout.written, Layout.column_map Token.receiverBound_start]

/-- A row of the tokens of a text, written under the new names, lexes into these tokens. -/
theorem lexed_written {text : List Char} {row : List Token} (hne : row ≠ [])
    (hpart : row <:+: (NestingScan.ofText text).significant)
    (horder : row.Pairwise fun a b => a.stop.offset ≤ b.start.offset) (indentation : Nat) :
    ∃ again,
      Comment.lexed (Layout.written indentation (row.map Token.receiverBound)).toList = .ok again ∧
        again.map Token.bare = (row.map Token.receiverBound).map Token.bare := by
  cases row with
  | nil => exact absurd rfl hne
  | cons t row =>
    have hbound := Layout.pairwise_map Token.receiverBound_start Token.receiverBound_stop horder
    rw [List.map_cons] at hbound
    have hspells := Layout.spells_row (t := t.receiverBound) t.start.offset
      (Layout.isSpace_of_mem_replicate indentation) (fun _ => rfl) hbound .nil
    rw [List.append_nil, List.append_nil] at hspells
    rw [Layout.written_toList, Comment.lexed_eq]
    rw [← List.map_cons] at hspells
    have hlexes := hspells.lexes_receiverBound (by simp) hpart
    exact ⟨_, NestingScan.outcome_of_lexesTo hlexes, (hlexes .first).2⟩

/-- A group whose receiver keyword is renamed keeps its shape and all places, and no token
but the keyword changes. The rows that are written for its contents have the indentation
and the tokens of the rows written before, with the keyword renamed, and are read back as
such, together and one by one. -/
theorem reads_back_receiver {text : List Char} {trees siblings : List TokenTree} {g : Group}
    (htrees : ofText text = .ok trees) (hlevel : Level (fun _ => True) trees siblings)
    (hg : g.tree ∈ siblings) :
    Aligned (fun t u => u = t.receiverBound) [g.tree] [receiver.tree g.tree] ∧
    (∃ again, ofText (String.intercalate "\n" (Layout.lines (receiver.trees g.inner))).toList =
        .ok again ∧ Aligned (fun t u => u.bare = t.receiverBound.bare) g.inner again) ∧
    ∃ rows : List (Nat × List Token), rows.flatMap Prod.snd = flatten g.inner ∧
      Layout.lines g.inner = rows.map (fun row => Layout.written row.1 row.2) ∧
      Layout.lines (receiver.trees g.inner) =
        rows.map (fun row => Layout.written row.1 (row.2.map Token.receiverBound)) ∧
      ∀ row ∈ rows, ∃ again,
        Comment.lexed (Layout.written row.1 (row.2.map Token.receiverBound)).toList = .ok again ∧
          again.map Token.bare = (row.2.map Token.receiverBound).map Token.bare := by
  obtain ⟨front, rest, rfl⟩ := List.append_of_mem hg
  have hinner : Level (fun _ => True) trees g.inner := hlevel.inside trivial
  have hpart := infix_significant htrees hinner (List.infix_refl _)
  have horder := (laid_flatten htrees).pairwise.sublist hinner.infix_flatten.sublist
  have haligned := aligned_receiver g.inner
  have hflatten := haligned.flatten_eq
  refine ⟨?_, ?_, ?_⟩
  · have hgroup := aligned_receiver [g.tree]
    rwa [Renaming.trees, Renaming.trees] at hgroup
  · obtain ⟨_, hformed, _⟩ := outcome_of_ofText htrees
    have hkinds : ∀ t u : Token, u = t.receiverBound → u.kind = t.kind := by
      rintro t _ rfl
      rfl
    have hbound := Layout.pairwise_map Token.receiverBound_start Token.receiverBound_stop horder
    rw [← hflatten] at hbound
    obtain ⟨stop, hstart, hspells⟩ := Layout.spells_lines hbound
    rw [hflatten] at hspells hstart
    have hstart' : ∀ t ∈ (flatten g.inner).head?, t.start.offset = stop := fun t ht =>
      hstart t.receiverBound (by rw [List.head?_map, Option.mem_def.1 ht]; rfl)
    have hlexes := hspells.lexes_receiverBound hstart' hpart
    rw [← hflatten] at hlexes
    obtain ⟨again, hagain, hsame⟩ :=
      (haligned.formed hkinds (hinner.formed hformed)).exists_ofText_same hlexes
    refine ⟨again, hagain, (haligned.same hsame).mono ?_⟩
    rintro t v ⟨_, rfl, hv⟩
    exact hv
  · have hrows := Layout.flatten_rows (flatten g.inner)
    refine ⟨(Layout.rows (flatten g.inner)).map fun row =>
      (Layout.column row - Layout.leastColumn (Layout.rows (flatten g.inner)), row), ?_, ?_, ?_, ?_⟩
    · rw [List.flatMap_map]
      exact List.flatMap_id'.trans hrows
    · rw [List.map_map]
      rfl
    · rw [List.map_map, lines_receiver]
      rfl
    · intro indented hmem
      obtain ⟨row, hrow, rfl⟩ := List.mem_map.1 hmem
      have hpiece : row <:+: flatten g.inner := by
        rw [← hrows]
        exact List.infix_of_mem_flatten hrow
      exact lexed_written (Layout.ne_nil_of_mem_rows _ row hrow) (hpiece.trans hpart)
        (horder.sublist hpiece.sublist) _

/-- A body with the keyword, its raw form, a lifetime and a string of that name. -/
theorem reads_back_receiver_inside :
    let this : Token := ⟨.ident, "self", ⟨1, 1, 2⟩, ⟨5, 1, 6⟩⟩
    let literal : Token := ⟨.string, "\"self\"", ⟨5, 1, 6⟩, ⟨11, 1, 12⟩⟩
    let raw : Token := ⟨.ident, "r#self", ⟨12, 2, 1⟩, ⟨18, 2, 7⟩⟩
    let lifetime : Token := ⟨.lifetime, "'self", ⟨18, 2, 7⟩, ⟨23, 2, 12⟩⟩
    let g : Group := ⟨.brace, ⟨.opener .brace, "\x7b", ⟨0, 1, 1⟩, ⟨1, 1, 2⟩⟩,
      [.token this, .token literal, .token raw, .token lifetime],
      ⟨.closer .brace, "\x7d", ⟨23, 2, 12⟩, ⟨24, 2, 13⟩⟩⟩
    ofText "\x7bself\"self\"\nr#self'self\x7d".toList = .ok [g.tree] ∧
      Layout.lines (receiver.trees g.inner) = [" __cb_this\"self\"", "r#self'self"] ∧
      ∃ again, ofText (String.intercalate "\n" (Layout.lines (receiver.trees g.inner))).toList =
        .ok again ∧ Aligned (fun t u => u.bare = t.receiverBound.bare) g.inner again := by
  intro this literal raw lifetime g
  have hlexed : Comment.lexed "\x7bself\"self\"\nr#self'self\x7d".toList =
      .ok [g.opener, this, literal, raw, lifetime, g.closer] := by
    decide +kernel
  have htrees : ofText "\x7bself\"self\"\nr#self'self\x7d".toList = .ok [g.tree] :=
    ofText_of_lexed hlexed
  have hread := reads_back_receiver htrees .top (List.mem_singleton_self g.tree)
  exact ⟨htrees, by decide +kernel, hread.2.1⟩

end Renaming

end LuaBindings
