import LuaBindings.Proofs.Token.Spelling
import LuaBindings.Proofs.TokenTree.Placement
import LuaBindings.TokenTree.Layout

/-!
# Reading back what is laid out

Trees of a text that are laid out, on one line or on rows, are read back as the same trees.
Both layouts spell the tokens of the trees: they leave out blanks only between tokens that
touch.
-/

set_option autoImplicit false

namespace LuaBindings

namespace Layout

/-! ### Rows -/

theorem flatten_addToRows (t : Token) (rows : List (List Token)) :
    (addToRows t rows).flatten = t :: rows.flatten := by
  unfold addToRows
  split
  · rfl
  · rfl
  · split
    · rfl
    · rfl

theorem ne_nil_of_mem_addToRows {t : Token} {rows : List (List Token)}
    (h : ∀ row ∈ rows, row ≠ []) :
    ∀ row ∈ addToRows t rows, row ≠ [] := by
  unfold addToRows
  split
  · simp
  · exact absurd rfl (h [] List.mem_cons_self)
  · split
    · exact List.forall_mem_cons.2 ⟨List.cons_ne_nil _ _, h⟩
    · exact List.forall_mem_cons.2 ⟨List.cons_ne_nil _ _, fun row hrow =>
        h row (List.mem_cons_of_mem _ hrow)⟩

/-- The rows hold all the tokens in their order. -/
theorem flatten_rows (tokens : List Token) : (rows tokens).flatten = tokens := by
  induction tokens with
  | nil => rfl
  | cons t rest ih => rw [rows, flatten_addToRows, ih]

theorem ne_nil_of_mem_rows (tokens : List Token) : ∀ row ∈ rows tokens, row ≠ [] := by
  induction tokens with
  | nil => simp [rows]
  | cons t rest ih => exact ne_nil_of_mem_addToRows ih

/-! ### One line -/

def between (t u : Token) : List Char := if t.stop.offset < u.start.offset then [' '] else []

theorem inlineTokens_singleton (t : Token) : (inlineTokens [t]).toList = t.text.toList := by
  simp [inlineTokens, Piece.inline, Piece.spread, piece]

theorem inlineTokens_cons_cons (t u : Token) (rest : List Token) :
    (inlineTokens (t :: u :: rest)).toList =
      t.text.toList ++ (between t u ++ (inlineTokens (u :: rest)).toList) := by
  simp only [inlineTokens, Piece.inline, List.map_cons, Piece.spread, between]
  by_cases h : t.stop.offset < u.start.offset
  · simp [Piece.spaced, piece, h]
  · simp [Piece.spaced, piece, h]

theorem isSpace_of_mem_between {t u : Token} : ∀ c ∈ between t u, Terminal.isSpace c = true := by
  unfold between
  split
  · simp
    decide
  · simp

/-- A row behind blanks, with what spells the tokens behind it from any offset on. -/
theorem spells_row (stop : Nat) {blanks new : List Char} {t : Token} {row toks : List Token}
    (hblanks : ∀ c ∈ blanks, Terminal.isSpace c = true)
    (htouch : blanks = [] → t.start.offset = stop)
    (horder : (t :: row).Pairwise fun a b => a.stop.offset ≤ b.start.offset)
    (hnew : ∀ stop, Spells stop toks new) :
    Spells stop (t :: row ++ toks) (blanks ++ ((inlineTokens (t :: row)).toList ++ new)) := by
  induction row generalizing t stop blanks with
  | nil =>
    rw [inlineTokens_singleton]
    exact .cons hblanks htouch (hnew _)
  | cons u row ih =>
    obtain ⟨hfirst, hrest⟩ := List.pairwise_cons.1 horder
    have hle := hfirst u List.mem_cons_self
    rw [inlineTokens_cons_cons, List.append_assoc, List.append_assoc]
    refine .cons hblanks htouch (ih _ isSpace_of_mem_between (fun hnone => ?_) hrest)
    unfold between at hnone
    split at hnone
    · cases hnone
    · omega

/-- Tokens on one line spell themselves. -/
theorem spells_inlineTokens {tokens : List Token}
    (horder : tokens.Pairwise fun a b => a.stop.offset ≤ b.start.offset) :
    ∃ stop, (∀ t ∈ tokens.head?, t.start.offset = stop) ∧
      Spells stop tokens (inlineTokens tokens).toList := by
  cases tokens with
  | nil => exact ⟨0, by simp, .nil 0⟩
  | cons t rest =>
    have hnone : ∀ c ∈ ([] : List Char), Terminal.isSpace c = true := by simp
    have hrow := spells_row t.start.offset hnone (fun _ => rfl) horder .nil
    rw [List.append_nil, List.append_nil, List.nil_append] at hrow
    exact ⟨_, by simp, hrow⟩

/-! ### Several rows -/

/-- A row as it is written if the leftmost row starts in the given column. -/
def rowText (least : Nat) (row : List Token) : List Char :=
  List.replicate (column row - least) ' ' ++ (inlineTokens row).toList

theorem lines_toList (trees : List TokenTree) : (lines trees).map String.toList =
    (rows (TokenTree.flatten trees)).map
      (rowText (leastColumn (rows (TokenTree.flatten trees)))) := by
  simp [lines, rowText]

theorem intercalate_cons (line : List Char) (lines : List (List Char)) :
    ['\n'].intercalate (line :: lines) = line ++ lines.flatMap ('\n' :: ·) := by
  induction lines generalizing line with
  | nil => simp
  | cons next lines ih =>
    rw [List.intercalate_cons_cons, ih, List.flatMap_cons]
    simp

theorem isSpace_of_mem_replicate (n : Nat) :
    ∀ c ∈ List.replicate n ' ', Terminal.isSpace c = true := by
  intro c hc
  rw [List.eq_of_mem_replicate hc]
  rfl

/-- Rows behind a line end spell their tokens from any offset on. -/
theorem spells_rows (least : Nat) {rows : List (List Token)} (hne : ∀ row ∈ rows, row ≠ [])
    (horder : rows.flatten.Pairwise fun a b => a.stop.offset ≤ b.start.offset) (stop : Nat) :
    Spells stop rows.flatten ((rows.map (rowText least)).flatMap ('\n' :: ·)) := by
  induction rows generalizing stop with
  | nil => exact .nil stop
  | cons row rows ih =>
    cases row with
    | nil => exact absurd rfl (hne [] List.mem_cons_self)
    | cons t row =>
      rw [List.flatten_cons] at horder ⊢
      obtain ⟨hrow, hrows, _⟩ := List.pairwise_append.1 horder
      have hrest := ih (fun r hr => hne r (List.mem_cons_of_mem _ hr)) hrows
      have hblanks : ∀ c ∈ '\n' :: List.replicate (column (t :: row) - least) ' ',
          Terminal.isSpace c = true :=
        List.forall_mem_cons.2 ⟨rfl, isSpace_of_mem_replicate _⟩
      have hspells := spells_row stop hblanks nofun hrow hrest
      rw [List.map_cons, List.flatMap_cons, rowText]
      simpa using hspells

/-- Trees on rows spell their tokens. -/
theorem spells_lines {trees : List TokenTree}
    (horder : (TokenTree.flatten trees).Pairwise fun a b => a.stop.offset ≤ b.start.offset) :
    ∃ stop, (∀ t ∈ (TokenTree.flatten trees).head?, t.start.offset = stop) ∧
      Spells stop (TokenTree.flatten trees) (String.intercalate "\n" (lines trees)).toList := by
  have hne := ne_nil_of_mem_rows (TokenTree.flatten trees)
  have hflatten := flatten_rows (TokenTree.flatten trees)
  have htext : (String.intercalate "\n" (lines trees)).toList = ['\n'].intercalate
      ((rows (TokenTree.flatten trees)).map
        (rowText (leastColumn (rows (TokenTree.flatten trees))))) := by
    rw [String.toList_intercalate, lines_toList]
    rfl
  rw [htext]
  generalize leastColumn (rows (TokenTree.flatten trees)) = least
  generalize rows (TokenTree.flatten trees) = rows at hne hflatten
  rw [← hflatten] at horder ⊢
  cases rows with
  | nil => exact ⟨0, by simp, .nil 0⟩
  | cons row rows =>
    cases row with
    | nil => exact absurd rfl (hne [] List.mem_cons_self)
    | cons t row =>
      rw [List.flatten_cons] at horder ⊢
      obtain ⟨hrow, hrows, _⟩ := List.pairwise_append.1 horder
      have hrest := spells_rows least (fun r hr => hne r (List.mem_cons_of_mem _ hr)) hrows
      have hspells := spells_row t.start.offset
        (isSpace_of_mem_replicate (column (t :: row) - least)) (fun _ => rfl) hrow hrest
      rw [List.map_cons, intercalate_cons, rowText, List.append_assoc]
      exact ⟨t.start.offset, by simp, hspells⟩

end Layout

namespace TokenTree

/-- The trees have the same groups, and the same tokens but for their places. -/
inductive Same : List TokenTree → List TokenTree → Prop
  | nil : Same [] []
  | token {t u : Token} {xs ys : List TokenTree} : t.bare = u.bare → Same xs ys →
    Same (.token t :: xs) (.token u :: ys)
  | group {d : Delimiter} {opener opener' closer closer' : Token}
    {inner inner' xs ys : List TokenTree} : opener.bare = opener'.bare → Same inner inner' →
    closer.bare = closer'.bare → Same xs ys →
    Same (.group d opener inner closer :: xs) (.group d opener' inner' closer' :: ys)

/-- Tokens that agree with those of some trees have the same trees. -/
theorem Formed.exists_same {trees : List TokenTree} {tokens : List Token} (h : Formed trees)
    (hsame : tokens.map Token.bare = (flatten trees).map Token.bare) :
    ∃ trees', Formed trees' ∧ flatten trees' = tokens ∧ Same trees trees' := by
  induction h generalizing tokens with
  | nil =>
    rw [flatten_nil, List.map_nil, List.map_eq_nil_iff] at hsame
    rw [hsame]
    exact ⟨[], .nil, flatten_nil, .nil⟩
  | @token t rest hplain _ ih =>
    rw [flatten_token_cons, List.map_cons] at hsame
    obtain ⟨u, tokens, rfl, hu, hrest⟩ := List.map_eq_cons_iff.1 hsame
    obtain ⟨trees', hformed, rfl, hsame'⟩ := ih hrest
    have hkind : u.kind = t.kind := congrArg Prod.fst hu
    exact ⟨_, .token (hkind ▸ hplain) hformed, flatten_token_cons _ _, .token hu.symm hsame'⟩
  | @group d opener closer inner rest hopen _ hclose _ ihinner ihrest =>
    rw [flatten_group_cons, List.map_cons, List.map_append, List.map_cons] at hsame
    obtain ⟨opener', tokens, rfl, hopener, htail⟩ := List.map_eq_cons_iff.1 hsame
    obtain ⟨front, back, rfl, hfront, hback⟩ := List.map_eq_append_iff.1 htail
    obtain ⟨closer', back, rfl, hcloser, hlast⟩ := List.map_eq_cons_iff.1 hback
    obtain ⟨inner', hinner, rfl, hsameInner⟩ := ihinner hfront
    obtain ⟨trees', hformed, rfl, hsameRest⟩ := ihrest hlast
    have hopens : opener'.kind = .opener d := (congrArg Prod.fst hopener).trans hopen
    have hcloses : closer'.kind = .closer d := (congrArg Prod.fst hcloser).trans hclose
    exact ⟨_, .group hopens hinner hcloses hformed, flatten_group_cons _ _ _ _ _,
      .group hopener.symm hsameInner hcloser.symm hsameRest⟩

/-- A text that lexes into the tokens of some trees is read as these trees. -/
theorem Formed.exists_ofText_same {trees : List TokenTree} {new : List Char}
    (hformed : Formed trees) (h : NestingScan.LexesTo new ((flatten trees).map Token.bare)) :
    ∃ again, ofText new = .ok again ∧ Same trees again := by
  obtain ⟨hfault, hbare⟩ := h .first
  obtain ⟨again, hagain, htokens, hsame⟩ := hformed.exists_same hbare
  refine ⟨again, ?_, hsame⟩
  rw [ofText_eq, NestingScan.outcome, NestingScan.ofText, hfault]
  exact ofTokens_eq_ok_iff.2 ⟨hagain, htokens⟩

/-- Neighbouring siblings are neighbouring tokens of the text. -/
theorem infix_significant {text : List Char} {trees siblings run : List TokenTree}
    (htrees : ofText text = .ok trees) (hlevel : Level (fun _ => True) trees siblings)
    (hrun : run <:+: siblings) : flatten run <:+: (NestingScan.ofText text).significant := by
  obtain ⟨_, _, hflatten⟩ := outcome_of_ofText htrees
  rw [← hflatten]
  exact (infix_flatten hrun).trans hlevel.infix_flatten

/-- A text that spells the tokens of neighbouring siblings is read as these siblings. -/
theorem exists_ofText_same {text new : List Char} {trees siblings run : List TokenTree} {stop : Nat}
    (htrees : ofText text = .ok trees) (hlevel : Level (fun _ => True) trees siblings)
    (hrun : run <:+: siblings) (hstart : ∀ t ∈ (flatten run).head?, t.start.offset = stop)
    (hspells : Spells stop (flatten run) new) :
    ∃ again, ofText new = .ok again ∧ Same run again := by
  obtain ⟨_, hformed, _⟩ := outcome_of_ofText htrees
  have hpart := infix_significant htrees hlevel hrun
  exact ((hlevel.formed hformed).of_part hrun).exists_ofText_same
    (hspells.written_ofText hstart hpart).lexesTo

/-- Neighbouring siblings anywhere in the trees of a text, laid out on one line or on rows,
are read back as they are. -/
theorem reads_back {text : List Char} {trees siblings run : List TokenTree}
    (htrees : ofText text = .ok trees) (hlevel : Level (fun _ => True) trees siblings)
    (hrun : run <:+: siblings) :
    (∃ again, ofText (Layout.inline run).toList = .ok again ∧ Same run again) ∧
    (∃ again, ofText (String.intercalate "\n" (Layout.lines run)).toList = .ok again ∧
      Same run again) := by
  have horder := (laid_flatten htrees).pairwise
  have hpart := (infix_flatten hrun).trans hlevel.infix_flatten
  have hrunOrder := horder.sublist hpart.sublist
  obtain ⟨_, hstart, hinline⟩ := Layout.spells_inlineTokens hrunOrder
  obtain ⟨_, hstart', hlines⟩ := Layout.spells_lines hrunOrder
  exact ⟨exists_ofText_same htrees hlevel hrun hstart hinline,
    exists_ofText_same htrees hlevel hrun hstart' hlines⟩

/-- The contents of a group, where a comment keeps a name from the lifetime behind it. -/
theorem reads_back_inside :
    let b : Token := ⟨.ident, "b", ⟨1, 1, 2⟩, ⟨2, 1, 3⟩⟩
    let x : Token := ⟨.lifetime, "'x", ⟨6, 1, 7⟩, ⟨8, 1, 9⟩⟩
    let g : Group := ⟨.brace, ⟨.opener .brace, "\x7b", ⟨0, 1, 1⟩, ⟨1, 1, 2⟩⟩,
      [.token b, .token x], ⟨.closer .brace, "\x7d", ⟨8, 1, 9⟩, ⟨9, 1, 10⟩⟩⟩
    ofText ['\x7b', 'b', '/', '*', '*', '/', '\'', 'x', '\x7d'] = .ok [g.tree] ∧
      (∃ again, ofText (Layout.inline g.inner).toList = .ok again ∧ Same g.inner again) ∧
      ∃ again, ofText (String.intercalate "\n" (Layout.lines g.inner)).toList = .ok again ∧
        Same g.inner again := by
  intro b x g
  have hlexed : Comment.lexed ['\x7b', 'b', '/', '*', '*', '/', '\'', 'x', '\x7d'] =
      .ok [g.opener, b, x, g.closer] := by
    decide +kernel
  have htrees : ofText ['\x7b', 'b', '/', '*', '*', '/', '\'', 'x', '\x7d'] = .ok [g.tree] :=
    ofText_of_lexed hlexed
  have htop : Level (fun _ => True) [g.tree] ([] ++ g.tree :: []) := .top
  exact ⟨htrees, reads_back htrees (htop.inside trivial) (List.infix_refl g.inner)⟩

end TokenTree
end LuaBindings
