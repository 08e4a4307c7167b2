import LuaBindings.Proofs.Token.Spacing
import LuaBindings.Proofs.TokenTree.Renaming
import Mathlib.Data.List.Chain

/-!
# Rows, and rows laid out again

Trees are written on rows that are broken where the source is broken between two tokens, each row
as far to the right of the leftmost one as in the source. Read again, the tokens stand behind the
blanks of the rows, so the new text is broken at the same places and has the same columns but for
a shift of all of them. Laying it out gives the same rows (`rows_kept_and_stable`).
-/

set_option autoImplicit false

namespace LuaBindings

namespace Layout

/-! ### Where rows are broken -/

/-- Rows are broken just where a token stands on a later line than the one before it ends. -/
structure Broken (rows : List (List Token)) : Prop where
  ne_nil : ∀ row ∈ rows, row ≠ []
  together : ∀ row ∈ rows, row.IsChain fun a b => ¬a.stop.line < b.start.line
  apart : rows.IsChain fun row next =>
    ∀ a ∈ row.getLast?, ∀ b ∈ next.head?, a.stop.line < b.start.line

theorem Broken.addToRows {rows : List (List Token)} (h : Broken rows) (t : Token) :
    Broken (addToRows t rows) := by
  cases rows with
  | nil =>
    exact ⟨List.forall_mem_singleton.2 (List.cons_ne_nil _ _),
      List.forall_mem_singleton.2 (List.isChain_singleton _), List.isChain_singleton _⟩
  | cons row rows =>
    cases row with
    | nil => exact absurd rfl (h.ne_nil [] List.mem_cons_self)
    | cons u row =>
      rw [Layout.addToRows]
      split
      · rename_i hlater
        refine ⟨List.forall_mem_cons.2 ⟨List.cons_ne_nil _ _, h.ne_nil⟩,
          List.forall_mem_cons.2 ⟨List.isChain_singleton _, h.together⟩,
          List.isChain_cons_cons.2 ⟨fun a ha b hb => ?_, h.apart⟩⟩
        cases ha
        cases hb
        exact hlater
      · rename_i hsame
        obtain ⟨hrow, hrows⟩ := List.forall_mem_cons.1 h.together
        refine ⟨List.forall_mem_cons.2 ⟨List.cons_ne_nil _ _, (List.forall_mem_cons.1 h.ne_nil).2⟩,
          List.forall_mem_cons.2 ⟨List.isChain_cons_cons.2 ⟨hsame, hrow⟩, hrows⟩, ?_⟩
        cases rows with
        | nil => exact List.isChain_singleton _
        | cons next rows =>
          obtain ⟨hnext, hrest⟩ := List.isChain_cons_cons.1 h.apart
          rw [List.getLast?_cons_cons.symm] at hnext
          exact List.isChain_cons_cons.2 ⟨hnext, hrest⟩

theorem broken_rows (tokens : List Token) : Broken (rows tokens) := by
  induction tokens with
  | nil => exact ⟨List.forall_mem_nil _, List.forall_mem_nil _, List.isChain_nil⟩
  | cons t rest ih => exact ih.addToRows t

theorem rows_cons (t : Token) (rest : List Token) :
    ∃ row others, rows (t :: rest) = (t :: row) :: others := by
  rw [rows]
  unfold addToRows
  split
  · exact ⟨_, _, rfl⟩
  · exact ⟨_, _, rfl⟩
  · split
    · exact ⟨_, _, rfl⟩
    · exact ⟨_, _, rfl⟩

/-- Tokens on one line before others on later lines are the first row. -/
theorem rows_append {row rest : List Token} (hne : row ≠ [])
    (htogether : row.IsChain fun a b => ¬a.stop.line < b.start.line)
    (hapart : ∀ a ∈ row.getLast?, ∀ b ∈ rest.head?, a.stop.line < b.start.line) :
    rows (row ++ rest) = row :: rows rest := by
  induction row with
  | nil => exact absurd rfl hne
  | cons t row ih =>
    cases row with
    | nil =>
      cases rest with
      | nil => rfl
      | cons b rest =>
        obtain ⟨more, others, hrows⟩ := rows_cons b rest
        rw [List.singleton_append, rows, hrows, addToRows, if_pos (hapart t rfl b rfl)]
    | cons u row =>
      obtain ⟨hsame, hrow⟩ := List.isChain_cons_cons.1 htogether
      rw [List.getLast?_cons_cons] at hapart
      rw [List.cons_append, rows, ih (List.cons_ne_nil _ _) hrow hapart, addToRows, if_neg hsame]

/-- There is only one way to break tokens into rows. -/
theorem Broken.rows_flatten {broken : List (List Token)} (h : Broken broken) :
    rows broken.flatten = broken := by
  induction broken with
  | nil => rfl
  | cons row others ih =>
    obtain ⟨hne, hothers⟩ := List.forall_mem_cons.1 h.ne_nil
    obtain ⟨hrow, htogether⟩ := List.forall_mem_cons.1 h.together
    rw [List.flatten_cons, rows_append hne hrow, ih ⟨hothers, htogether, h.apart.tail⟩]
    intro a ha b hb
    cases others with
    | nil => cases hb
    | cons next others =>
      refine (List.isChain_cons_cons.1 h.apart).1 a ha b ?_
      rwa [List.flatten_cons, List.head?_append_of_ne_nil _ (hothers next List.mem_cons_self)] at hb

/-! ### The leftmost row -/

theorem leastColumn_le {rows : List (List Token)} :
    ∀ row ∈ rows, leastColumn rows ≤ column row := by
  induction rows with
  | nil => exact List.forall_mem_nil _
  | cons first rows ih =>
    cases rows with
    | nil => exact List.forall_mem_singleton.2 (Nat.le_refl _)
    | cons next rows =>
      exact List.forall_mem_cons.2 ⟨Nat.min_le_left _ _, fun row hrow =>
        Nat.le_trans (Nat.min_le_right _ _) (ih row hrow)⟩

theorem exists_column_eq {rows : List (List Token)} (hne : rows ≠ []) :
    ∃ row ∈ rows, column row = leastColumn rows := by
  induction rows with
  | nil => exact absurd rfl hne
  | cons first rows ih =>
    cases rows with
    | nil => exact ⟨first, List.mem_cons_self, rfl⟩
    | cons next rows =>
      obtain ⟨row, hrow, hleast⟩ := ih (List.cons_ne_nil _ _)
      have hmin : leastColumn (first :: next :: rows) = min (column first) (column row) := by
        rw [hleast]
        rfl
      rw [hmin]
      rcases Nat.le_total (column first) (column row) with h | h
      · exact ⟨first, List.mem_cons_self, (Nat.min_eq_left h).symm⟩
      · exact ⟨row, List.mem_cons_of_mem _ hrow, (Nat.min_eq_right h).symm⟩

/-! ### The blanks of the rows -/

/-- A row with the blanks in front of it and between its tokens. -/
def rowSpacing (blanks : List Char) : List Token → Spacing
  | [] => []
  | [t] => [(blanks, t)]
  | t :: u :: row => (blanks, t) :: rowSpacing (between t u) (u :: row)

/-- The blanks before a row, behind what is written before all of them. -/
def rowBlanks (lead : List Char) (least : Nat) (row : List Token) : List Char :=
  lead ++ List.replicate (column row - least) ' '

def rowsSpacing (lead : List Char) (least : Nat) : List (List Token) → Spacing
  | [] => []
  | row :: rows => rowSpacing (rowBlanks lead least row) row ++ rowsSpacing ['\n'] least rows

def placedRows (here : Location) (lead : List Char) (least : Nat) :
    List (List Token) → List (List Token)
  | [] => []
  | row :: rows =>
    let s := rowSpacing (rowBlanks lead least row) row
    s.placed here :: placedRows (here.after s.text) ['\n'] least rows

theorem flatten_placedRows (here : Location) (lead : List Char) (least : Nat)
    (rows : List (List Token)) :
    (placedRows here lead least rows).flatten = (rowsSpacing lead least rows).placed here := by
  induction rows generalizing here lead with
  | nil => rfl
  | cons row rows ih => rw [placedRows, List.flatten_cons, ih, rowsSpacing, Spacing.placed_append]

theorem text_rowSpacing (blanks : List Char) (t : Token) (row : List Token) :
    (rowSpacing blanks (t :: row)).text = blanks ++ (inlineTokens (t :: row)).toList := by
  induction row generalizing t blanks with
  | nil => rw [rowSpacing, inlineTokens_singleton, Spacing.text, Spacing.text, List.append_nil]
  | cons u row ih => rw [rowSpacing, Spacing.text, ih, inlineTokens_cons_cons]

theorem text_rowsSpacing (lead : List Char) (least : Nat) {row : List Token}
    {rows : List (List Token)} (hne : ∀ r ∈ row :: rows, r ≠ []) :
    (rowsSpacing lead least (row :: rows)).text =
      lead ++ ['\n'].intercalate ((row :: rows).map (rowText least)) := by
  induction rows generalizing row lead with
  | nil =>
    cases row with
    | nil => exact absurd rfl (hne [] List.mem_cons_self)
    | cons t row =>
      rw [rowsSpacing, rowsSpacing, List.append_nil, text_rowSpacing, rowBlanks]
      simp [rowText]
  | cons next rows ih =>
    obtain ⟨hrow, hrows⟩ := List.forall_mem_cons.1 hne
    cases row with
    | nil => exact absurd rfl hrow
    | cons t row =>
      rw [rowsSpacing, Spacing.text_append, ih ['\n'] hrows, text_rowSpacing, rowBlanks]
      simp only [List.map_cons, List.intercalate_cons_cons, rowText, List.append_assoc]

/-! ### Where the rows then stand -/

theorem after_replicate (here : Location) (n : Nat) :
    here.after (List.replicate n ' ') = ⟨here.offset + n, here.line, here.column + n⟩ := by
  induction n generalizing here with
  | zero => rfl
  | succ n ih =>
    rw [List.replicate_succ]
    change (here.next ' ').after (List.replicate n ' ') = _
    rw [ih, Location.next, if_neg (by decide)]
    simp only [Nat.add_assoc, Nat.add_comm 1 n]

theorem after_between (here : Location) (t u : Token) :
    (here.after (between t u)).line = here.line ∧
      (here.offset < (here.after (between t u)).offset ↔ t.stop.offset < u.start.offset) := by
  unfold between
  split
  · rename_i h
    exact ⟨rfl, iff_of_true (Nat.lt_succ_self _) h⟩
  · rename_i h
    exact ⟨rfl, iff_of_false (Nat.lt_irrefl _) h⟩

theorem rowSpacing_cons (blanks : List Char) (t : Token) (row : List Token) :
    ∃ rest, rowSpacing blanks (t :: row) = (blanks, t) :: rest := by
  cases row with
  | nil => exact ⟨_, rfl⟩
  | cons u row => exact ⟨_, rfl⟩

/-- The last token of a text ends where the text ends. -/
theorem stop_of_placed {here : Location} {s : Spacing} :
    ∀ a ∈ (s.placed here).getLast?, a.stop = here.after s.text := by
  induction s generalizing here with
  | nil => exact nofun
  | cons entry s ih =>
    cases s with
    | nil =>
      intro a ha
      cases ha
      rw [Spacing.text, Spacing.text, List.append_nil, Location.after_append]
      rfl
    | cons next s =>
      intro a ha
      rw [Spacing.text, Location.after_append, Location.after_append]
      refine ih a ?_
      rwa [Spacing.placed, Spacing.placed, List.getLast?_cons_cons, ← Spacing.placed] at ha

/-- A row stays on one line. -/
theorem isChain_placed (here : Location) (blanks : List Char) (row : List Token) :
    ((rowSpacing blanks row).placed here).IsChain fun a b => b.start.line = a.stop.line := by
  induction row generalizing here blanks with
  | nil => exact List.isChain_nil
  | cons t row ih =>
    cases row with
    | nil => exact List.isChain_singleton _
    | cons u row =>
      rw [rowSpacing, Spacing.placed]
      refine List.isChain_cons.2 ⟨fun b hb => ?_, ih _ _⟩
      obtain ⟨rest, hrest⟩ := rowSpacing_cons (between t u) u row
      rw [hrest] at hb
      cases hb
      exact (after_between _ t u).1

/-- What is written of a row is written of it where it stands then. -/
theorem inlineTokens_placed (here : Location) (blanks : List Char) (row : List Token) :
    (inlineTokens ((rowSpacing blanks row).placed here)).toList = (inlineTokens row).toList := by
  induction row generalizing here blanks with
  | nil => rfl
  | cons t row ih =>
    cases row with
    | nil => rw [rowSpacing, Spacing.placed, Spacing.placed, inlineTokens_singleton,
        inlineTokens_singleton]
    | cons u row =>
      have hinline := ih ((here.after blanks).after t.text.toList) (between t u)
      obtain ⟨rest, hrest⟩ := rowSpacing_cons (between t u) u row
      rw [hrest, Spacing.placed] at hinline
      rw [rowSpacing, hrest, Spacing.placed, Spacing.placed, inlineTokens_cons_cons,
        inlineTokens_cons_cons, hinline]
      refine congrArg (fun blanks => t.text.toList ++ (blanks ++ _)) ?_
      exact if_congr (after_between _ t u).2 rfl rfl

section
variable {here : Location} {lead : List Char} {least : Nat} {rows : List (List Token)}

/-- A row begins behind its blanks. -/
theorem exists_placed_row {row : List Token} (hne : row ≠ []) :
    ∃ first rest, (rowSpacing (rowBlanks lead least row) row).placed here = first :: rest ∧
      first.start.line = (here.after lead).line ∧
      first.start.column = (here.after lead).column + (column row - least) := by
  cases row with
  | nil => exact absurd rfl hne
  | cons t row =>
    obtain ⟨rest, hrest⟩ := rowSpacing_cons (rowBlanks lead least (t :: row)) t row
    rw [hrest, Spacing.placed, rowBlanks, Location.after_append, after_replicate]
    exact ⟨_, _, rfl, rfl, rfl⟩

theorem ne_nil_of_mem_placedRows (hne : ∀ row ∈ rows, row ≠ []) :
    ∀ row ∈ placedRows here lead least rows, row ≠ [] := by
  induction rows generalizing here lead with
  | nil => exact List.forall_mem_nil _
  | cons row rows ih =>
    obtain ⟨hrow, hrows⟩ := List.forall_mem_cons.1 hne
    obtain ⟨first, rest, hplaced, -⟩ := exists_placed_row hrow
    refine List.forall_mem_cons.2 ⟨?_, ih hrows⟩
    rw [hplaced]
    exact List.cons_ne_nil _ _

/-- Behind a line end, the first row stands on a later line. -/
theorem line_lt_of_head (hne : ∀ row ∈ rows, row ≠ []) :
    ∀ row ∈ (placedRows here ['\n'] least rows).head?, ∀ b ∈ row.head?,
      here.line < b.start.line := by
  cases rows with
  | nil => exact nofun
  | cons row rows =>
    intro placed hplaced b hb
    cases hplaced
    obtain ⟨first, rest, hfirst, hline, -⟩ := exists_placed_row (hne row List.mem_cons_self)
    rw [hfirst] at hb
    cases hb
    rw [hline]
    exact Nat.lt_succ_self _

theorem broken_placedRows (hne : ∀ row ∈ rows, row ≠ []) :
    Broken (placedRows here lead least rows) where
  ne_nil := ne_nil_of_mem_placedRows hne
  together := by
    induction rows generalizing here lead with
    | nil => exact List.forall_mem_nil _
    | cons row rows ih =>
      refine List.forall_mem_cons.2 ⟨?_, ih (List.forall_mem_cons.1 hne).2⟩
      exact (isChain_placed _ _ _).imp fun a b h => by omega
  apart := by
    induction rows generalizing here lead with
    | nil => exact List.isChain_nil
    | cons row rows ih =>
      have hrows := (List.forall_mem_cons.1 hne).2
      refine List.isChain_cons.2 ⟨fun next hnext a ha b hb => ?_, ih hrows⟩
      rw [stop_of_placed a ha]
      exact line_lt_of_head hrows next hnext b hb

/-- The rows have their texts, and their columns relative to the leftmost one. -/
theorem forall₂_placedRows (hne : ∀ row ∈ rows, row ≠ []) (hlead : (here.after lead).column = 1) :
    List.Forall₂ (fun row again => inlineTokens again = inlineTokens row ∧
      column again = column row - least + 1) rows (placedRows here lead least rows) := by
  induction rows generalizing here lead with
  | nil => exact .nil
  | cons row rows ih =>
    obtain ⟨hrow, hrows⟩ := List.forall_mem_cons.1 hne
    obtain ⟨first, rest, hplaced, -, hcolumn⟩ := exists_placed_row hrow
    refine .cons ⟨String.toList_inj.1 (inlineTokens_placed _ _ _), ?_⟩ (ih hrows rfl)
    rw [hplaced, column, hcolumn, hlead, Nat.add_comm]

end

theorem leastColumn_shifted {least : Nat} {rows again : List (List Token)}
    (h : List.Forall₂ (fun row again => column again = column row - least + 1) rows again)
    (hne : rows ≠ []) : leastColumn again = leastColumn rows - least + 1 := by
  induction h with
  | nil => exact absurd rfl hne
  | @cons row first rows again hfirst hrest ih =>
    cases hrest with
    | nil => exact hfirst
    | @cons next second rows again hsecond hrest =>
      have hleast := ih (List.cons_ne_nil _ _)
      change min (column first) (leastColumn (second :: again)) =
        min (column row) (leastColumn (next :: rows)) - least + 1
      omega

theorem lines_eq (trees : List TokenTree) :
    lines trees = (rows (TokenTree.flatten trees)).map fun row =>
      written (column row - leastColumn (rows (TokenTree.flatten trees))) row := rfl

/-- Rows laid out again are the rows. -/
theorem lines_of_placed {trees again : List TokenTree}
    (hagain : TokenTree.flatten again =
      (rowsSpacing [] (leastColumn (rows (TokenTree.flatten trees)))
        (rows (TokenTree.flatten trees))).placed .first) :
    lines again = lines trees := by
  have hne := ne_nil_of_mem_rows (TokenTree.flatten trees)
  rw [lines_eq, lines_eq, hagain, ← flatten_placedRows, (broken_placedRows hne).rows_flatten]
  generalize rows (TokenTree.flatten trees) = rows at hne ⊢
  cases rows with
  | nil => rfl
  | cons row rows =>
    have hmatch : List.Forall₂ (fun here again => inlineTokens again = inlineTokens here ∧
        column again = column here - leastColumn (row :: rows) + 1) (row :: rows)
        (placedRows .first [] (leastColumn (row :: rows)) (row :: rows)) :=
      forall₂_placedRows hne rfl
    have hleast := leastColumn_shifted (hmatch.imp fun _ _ h => h.2) (List.cons_ne_nil _ _)
    rw [hleast, ← List.forall₂_eq_eq_eq, List.forall₂_map_left_iff, List.forall₂_map_right_iff]
    refine hmatch.flip.imp fun again row h => ?_
    rw [written, written, h.1, h.2]
    congr 3
    omega

theorem snd_rowSpacing (blanks : List Char) (row : List Token) :
    (rowSpacing blanks row).map Prod.snd = row := by
  induction row generalizing blanks with
  | nil => rfl
  | cons t row ih =>
    cases row with
    | nil => rfl
    | cons u row => rw [rowSpacing, List.map_cons, ih]

theorem snd_rowsSpacing (lead : List Char) (least : Nat) (rows : List (List Token)) :
    (rowsSpacing lead least rows).map Prod.snd = rows.flatten := by
  induction rows generalizing lead with
  | nil => rfl
  | cons row rows ih => rw [rowsSpacing, List.map_append, snd_rowSpacing, ih, List.flatten_cons]

theorem isSpace_rowSpacing {blanks : List Char} (h : ∀ c ∈ blanks, Terminal.isSpace c = true)
    (row : List Token) :
    ∀ entry ∈ rowSpacing blanks row, ∀ c ∈ entry.1, Terminal.isSpace c = true := by
  induction row generalizing blanks with
  | nil => exact List.forall_mem_nil _
  | cons t row ih =>
    cases row with
    | nil => exact List.forall_mem_singleton.2 h
    | cons u row => exact List.forall_mem_cons.2 ⟨h, ih isSpace_of_mem_between⟩

theorem isSpace_rowsSpacing {lead : List Char} (h : ∀ c ∈ lead, Terminal.isSpace c = true)
    (least : Nat) (rows : List (List Token)) :
    ∀ entry ∈ rowsSpacing lead least rows, ∀ c ∈ entry.1, Terminal.isSpace c = true := by
  induction rows generalizing lead with
  | nil => exact List.forall_mem_nil _
  | cons row rows ih =>
    have hblanks : ∀ c ∈ rowBlanks lead least row, Terminal.isSpace c = true :=
      List.forall_mem_append.2 ⟨h, isSpace_of_mem_replicate _⟩
    exact List.forall_mem_append.2 ⟨isSpace_rowSpacing hblanks row,
      ih (List.forall_mem_singleton.2 rfl)⟩

end Layout

/-! ### The rows of a source -/

/-- Of two tokens of a text that stand one behind the other, the second is on no earlier line. -/
theorem Token.StandsIn.line_le {text : List Char} {a b : Token} (ha : a.StandsIn text)
    (hb : b.StandsIn text) (h : a.stop.offset ≤ b.start.offset) : a.stop.line ≤ b.start.line := by
  rw [ha.stop_eq, hb.start_eq]
  exact Nat.succ_le_succ ((List.take_sublist_take_left h).count_le '\n')

namespace TokenTree

open NestingScan

variable {text : List Char} {trees siblings run : List TokenTree}

/-- The text of some trees on rows is the one with the blanks of the rows. -/
theorem lines_text (trees : List TokenTree) :
    (String.intercalate "\n" (Layout.lines trees)).toList =
      (Layout.rowsSpacing [] (Layout.leastColumn (Layout.rows (flatten trees)))
        (Layout.rows (flatten trees))).text := by
  have hne := Layout.ne_nil_of_mem_rows (flatten trees)
  rw [String.toList_intercalate, Layout.lines_toList]
  generalize Layout.leastColumn (Layout.rows (flatten trees)) = least
  generalize Layout.rows (flatten trees) = rows at hne ⊢
  cases rows with
  | nil => rfl
  | cons row rows =>
    rw [Layout.text_rowsSpacing [] least hne]
    rfl

/-- Read again, the tokens of neighbouring siblings stand behind the blanks of their rows. -/
theorem exists_again_placed (htrees : ofText text = .ok trees)
    (hlevel : Level (fun _ => True) trees siblings) (hrun : run <:+: siblings) :
    ∃ again, ofText (String.intercalate "\n" (Layout.lines run)).toList = .ok again ∧
      flatten again = (Layout.rowsSpacing [] (Layout.leastColumn (Layout.rows (flatten run)))
        (Layout.rows (flatten run))).placed .first := by
  obtain ⟨_, hformed, _⟩ := outcome_of_ofText htrees
  have hpart := infix_significant htrees hlevel hrun
  have horder := (laid_flatten htrees).pairwise.sublist
    ((infix_flatten hrun).trans hlevel.infix_flatten).sublist
  obtain ⟨_, hstart, hspells⟩ := Layout.spells_lines horder
  have hwritten := hspells.written_ofText hstart hpart
  obtain ⟨again, hagain, _⟩ :=
    ((hlevel.formed hformed).of_part hrun).exists_ofText_same hwritten.lexesTo
  refine ⟨again, hagain, ?_⟩
  obtain ⟨_, _, hflatten⟩ := outcome_of_ofText hagain
  rw [lines_text] at hwritten hflatten
  have htokens := Layout.snd_rowsSpacing [] (Layout.leastColumn (Layout.rows (flatten run)))
    (Layout.rows (flatten run))
  rw [Layout.flatten_rows] at htokens
  have hblanks := Layout.isSpace_rowsSpacing (List.forall_mem_nil _)
    (Layout.leastColumn (Layout.rows (flatten run))) (Layout.rows (flatten run))
  -- From here on nothing counts but that these are blanks and the tokens of the run.
  generalize Layout.rowsSpacing [] (Layout.leastColumn (Layout.rows (flatten run)))
    (Layout.rows (flatten run)) = s at *
  have hsolid : ∀ entry ∈ s, entry.2.Solid := fun entry hentry =>
    (cut_scanFrom .first text).solid _ (hpart.subset (htokens ▸ List.mem_map_of_mem hentry))
  have hbare : Written s.text (s.map fun entry => entry.2.bare) := by
    rwa [← htokens, List.map_map] at hwritten
  rw [hflatten]
  exact (hbare.scanFrom_spaced hblanks hsolid .first).2

theorem flatten_ne_nil {trees : List TokenTree} (hne : trees ≠ []) : flatten trees ≠ [] := by
  cases trees with
  | nil => exact absurd rfl hne
  | cons tree rest =>
    cases tree with
    | token t =>
      rw [flatten_token_cons]
      exact List.cons_ne_nil _ _
    | group d opener inner closer =>
      rw [flatten_group_cons]
      exact List.cons_ne_nil _ _

/-- The tokens on rows: those on one row are on one line of the source, and those of the next row
on later lines. -/
structure OnRows (tokens : List Token) (rows : List (List Token)) : Prop where
  flatten_eq : rows.flatten = tokens
  ne_nil : ∀ row ∈ rows, row ≠ []
  together : ∀ row ∈ rows, row.IsChain fun a b => b.start.line = a.stop.line
  apart : rows.IsChain fun row next =>
    ∀ a ∈ row.getLast?, ∀ b ∈ next.head?, a.stop.line < b.start.line

theorem onRows_rows (htrees : ofText text = .ok trees)
    (hlevel : Level (fun _ => True) trees siblings) (hrun : run <:+: siblings) :
    OnRows (flatten run) (Layout.rows (flatten run)) := by
  have hsibling := (infix_flatten hrun).trans hlevel.infix_flatten
  have hlaid : (flatten run).Pairwise fun a b => a.stop.line ≤ b.start.line := by
    refine ((laid_flatten htrees).pairwise.imp_of_mem fun ha hb h => ?_).sublist hsibling.sublist
    exact ((laid_flatten htrees).standsIn _ ha).line_le ((laid_flatten htrees).standsIn _ hb) h
  have hbroken := Layout.broken_rows (flatten run)
  have hflatten := Layout.flatten_rows (flatten run)
  refine ⟨hflatten, hbroken.ne_nil, fun row hrow => ?_, hbroken.apart⟩
  have hpart : row <:+: flatten run := hflatten ▸ List.infix_of_mem_flatten hrow
  have hlines : row.IsChain fun a b => a.stop.line ≤ b.start.line :=
    (hlaid.sublist hpart.sublist).isChain
  rw [List.isChain_iff_forall_rel_of_append_cons_cons] at hlines ⊢
  intro a b front back heq
  have hsame := List.isChain_iff_forall_rel_of_append_cons_cons.1 (hbroken.together row hrow) heq
  exact Nat.le_antisymm (Nat.le_of_not_lt hsame) (hlines heq)

/-- Neighbouring siblings anywhere in the trees of a text, on rows. The rows are broken just where
a token stands on a later line than the one before it ends, and each is indented by its column less
the least one, which one of them has at least. Read again and laid out again they are the same. -/
theorem rows_kept_and_stable (htrees : ofText text = .ok trees)
    (hlevel : Level (fun _ => True) trees siblings) (hrun : run <:+: siblings) (hne : run ≠ []) :
    (∃ rows least, OnRows (flatten run) rows ∧
      (∀ row ∈ rows, least ≤ Layout.column row) ∧ (∃ row ∈ rows, Layout.column row = least) ∧
      Layout.lines run = rows.map fun row => Layout.written (Layout.column row - least) row) ∧
    ∃ again, ofText (String.intercalate "\n" (Layout.lines run)).toList = .ok again ∧
      Layout.lines again = Layout.lines run := by
  refine ⟨⟨Layout.rows (flatten run), Layout.leastColumn (Layout.rows (flatten run)),
    onRows_rows htrees hlevel hrun, Layout.leastColumn_le, Layout.exists_column_eq ?_, rfl⟩, ?_⟩
  · intro hnone
    have hflatten := Layout.flatten_rows (flatten run)
    rw [hnone, List.flatten_nil] at hflatten
    exact flatten_ne_nil hne hflatten.symm
  · obtain ⟨again, hagain, hplaced⟩ := exists_again_placed htrees hlevel hrun
    exact ⟨again, hagain, Layout.lines_of_placed hplaced⟩

/-- The contents of a group on two lines, the first of which begins in the group's. -/
theorem rows_kept_and_stable_inside :
    let b : Token := ⟨.ident, "b", ⟨1, 1, 2⟩, ⟨2, 1, 3⟩⟩
    let x : Token := ⟨.ident, "x", ⟨5, 2, 3⟩, ⟨6, 2, 4⟩⟩
    let g : Group := ⟨.brace, ⟨.opener .brace, "\x7b", ⟨0, 1, 1⟩, ⟨1, 1, 2⟩⟩,
      [.token b, .token x], ⟨.closer .brace, "\x7d", ⟨6, 2, 4⟩, ⟨7, 2, 5⟩⟩⟩
    ofText ['\x7b', 'b', '\n', ' ', ' ', 'x', '\x7d'] = .ok [g.tree] ∧
      (∃ rows, OnRows [b, x] rows) ∧
      ∃ again, ofText (String.intercalate "\n" (Layout.lines g.inner)).toList = .ok again ∧
        Layout.lines again = Layout.lines g.inner := by
  intro b x g
  have hlexed : Comment.lexed ['\x7b', 'b', '\n', ' ', ' ', 'x', '\x7d'] =
      .ok [g.opener, b, x, g.closer] := by
    decide +kernel
  have htrees : ofText ['\x7b', 'b', '\n', ' ', ' ', 'x', '\x7d'] = .ok [g.tree] :=
    ofText_of_lexed hlexed
  have htop : Level (fun _ => True) [g.tree] ([] ++ g.tree :: []) := .top
  obtain ⟨⟨rows, _, hrows, _⟩, hagain⟩ := rows_kept_and_stable htrees (htop.inside trivial)
    (List.infix_refl g.inner) (List.cons_ne_nil _ _)
  exact ⟨htrees, ⟨rows, hrows⟩, hagain⟩

/-- A row keeps what it has over the leftmost one. -/
example : Layout.lines [.token ⟨.ident, "b", ⟨1, 1, 2⟩, ⟨2, 1, 3⟩⟩,
    .token ⟨.ident, "x", ⟨5, 2, 3⟩, ⟨6, 2, 4⟩⟩] = ["b", " x"] := by
  decide

end TokenTree
end LuaBindings
