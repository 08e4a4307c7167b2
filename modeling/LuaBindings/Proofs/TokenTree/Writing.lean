import LuaBindings.Proofs.Cursor
import LuaBindings.Proofs.Token.Writing
import LuaBindings.Proofs.TokenTree.Angles
import LuaBindings.Proofs.TokenTree.Rereading

/-!
# Writing trees

A text prints trees if it has their tokens wherever a boundary comes behind it. Texts that
print trees are put together like the trees, and the whole is read as the trees that were
put together (`Prints.exists_same`), with the same groups and the same chunks.
-/

set_option autoImplicit false

namespace LuaBindings.TokenTree

open NestingScan (Written)
open Terminal (Bounded)

abbrev Words := List (TokenKind × String)

def words (trees : List TokenTree) : Words := (flatten trees).map Token.bare

/-- In front of a boundary the text has the tokens of the trees. -/
structure Prints (text : List Char) (trees : List TokenTree) : Prop where
  formed : Formed trees
  written {rest : List Char} {bares : List (TokenKind × String)} (hrest : Written rest bares)
    (hbounded : Bounded rest) : Written (text ++ rest) (words trees ++ bares)

def lexeme (kind : TokenKind) (text : String) : TokenTree := .token (.whole kind text)

def enclosed (d : Delimiter) (inner : List TokenTree) : TokenTree :=
  .group d (.whole (.opener d) d.openText) inner (.whole (.closer d) d.closeText)

theorem words_append (xs ys : List TokenTree) : words (xs ++ ys) = words xs ++ words ys := by
  rw [words, flatten_append, List.map_append, words, words]

theorem words_lexeme_cons (kind : TokenKind) (text : String) (trees : List TokenTree) :
    words (lexeme kind text :: trees) = (kind, text) :: words trees := by
  rw [words, lexeme, flatten_token_cons]
  rfl

theorem words_enclosed_cons (d : Delimiter) (inner trees : List TokenTree) :
    words (enclosed d inner :: trees) =
      (.opener d, d.openText) :: (words inner ++ (.closer d, d.closeText) :: words trees) := by
  rw [words, enclosed, flatten_group_cons, List.map_cons, List.map_append, List.map_cons]
  rfl

/-- All tokens of the trees are such that the next character decides where they end. -/
def Local (trees : List TokenTree) : Prop :=
  ∀ t ∈ flatten trees, Terminal.isLocal t.bare = true

def groups (d : Delimiter) (trees : List TokenTree) : List Group := trees.filterMap (group? d)

namespace Prints

variable {text front back : List Char} {trees xs ys : List TokenTree}

theorem exists_same (h : Prints text trees) :
    ∃ again, ofText text = .ok again ∧ Same trees again := by
  have hwritten := (h.written .nil Terminal.bounded_nil).lexesTo
  rw [List.append_nil, List.append_nil] at hwritten
  exact h.formed.exists_ofText_same hwritten

theorem nil : Prints [] [] where
  formed := .nil
  written hrest _ := hrest

theorem append (hx : Prints front xs) (hy : Prints back ys) (hback : Bounded back) :
    Prints (front ++ back) (xs ++ ys) where
  formed := hx.formed.append hy.formed
  written {rest _} hrest hbounded := by
    have hbehind : Bounded (back ++ rest) := by
      cases back with
      | nil => exact hbounded
      | cons c back => exact hback
    have hwritten := hx.written (hy.written hrest hbounded) hbehind
    rwa [List.append_assoc, words_append, List.append_assoc]

theorem blank (h : Prints text trees) : Prints (' ' :: text) trees where
  formed := h.formed
  written hrest hbounded := .blank rfl (h.written hrest hbounded)

/-- A text of local tokens prints the trees that they make up. -/
theorem of_written (h : Written text (words trees)) (hformed : Formed trees)
    (hlocal : Local trees) : Prints text trees where
  formed := hformed
  written hrest hbounded := by
    refine h.append (fun bare hbare => ?_) hrest hbounded
    obtain ⟨t, ht, rfl⟩ := List.mem_map.1 hbare
    exact hlocal t ht

theorem of_lexeme {kind : TokenKind} {text : String}
    (halone : Terminal.IsLexeme kind text)
    (hkind : kind.isTrivia = false) (hdelimiter : kind.isDelimiter = false)
    (hstring : kind = .string → Terminal.isFirm text.toList = true) :
    Prints text.toList [lexeme kind text] where
  formed := .token hdelimiter .nil
  written hrest hbounded :=
    hrest.lexeme halone hkind (Terminal.follows_of_bounded hkind hstring hbounded)

/-- Any text may stand behind a group and at the front of its inside. -/
theorem group (d : Delimiter) (h : Prints text trees) (hback : Prints back ys) :
    Prints (d.openText.toList ++ (text ++ (d.closeText.toList ++ back)))
      (enclosed d trees :: ys) where
  formed := .group rfl h.formed rfl hback.formed
  written {rest bares} hrest hbounded := by
    obtain ⟨c, hc, hopen⟩ : ∃ c, d.openText.toList = [c] ∧
        (.opener d, c) ∈ Terminal.delimiters := by
      cases d <;> exact ⟨_, rfl, by decide⟩
    obtain ⟨e, he, hclose, hend⟩ : ∃ e, d.closeText.toList = [e] ∧
        (.closer d, e) ∈ Terminal.delimiters ∧ e ∈ Terminal.boundaries := by
      cases d <;> exact ⟨_, rfl, by decide, by decide⟩
    have hbehind := (hback.written hrest hbounded).delimiter hclose
    have hwhole := (h.written hbehind (Terminal.bounded_cons hend _)).delimiter hopen
    rw [← hc, ← he, String.ofList_toList, String.ofList_toList] at hwhole
    rw [words_enclosed_cons, hc, he]
    simpa using hwhole

/-! ### Lists -/

theorem comma : Prints ",".toList [lexeme .punct ","] := .of_lexeme rfl rfl rfl nofun

theorem intercalate {texts : List (List Char)} {parts : List (List TokenTree)}
    (h : List.Forall₂ Prints texts parts) :
    Prints ([',', ' '].intercalate texts) ([lexeme .punct ","].intercalate parts) := by
  induction h with
  | nil => exact nil
  | @cons text part texts parts hfirst hrest ih =>
    cases hrest with
    | nil =>
      rw [List.intercalate_singleton, List.intercalate_singleton]
      exact hfirst
    | cons _ _ =>
      rw [List.intercalate_cons_cons, List.intercalate_cons_cons, List.append_assoc,
        List.append_assoc]
      have hbehind := comma.append ih.blank (Terminal.bounded_cons (by decide) _)
      exact hfirst.append hbehind (Terminal.bounded_cons (by decide) _)

end Prints

/-! ### Chunks of lists -/

structure IsChunk (text : String) (trees : List TokenTree) : Prop where
  prints : Prints text.toList trees
  uncut : Uncut trees
  ne_nil : trees ≠ []

namespace IsChunk

theorem of_inert {text : String} {trees : List TokenTree} (h : Prints text.toList trees)
    (hinert : ∀ tree ∈ trees, Inert tree) (hne : trees ≠ []) : IsChunk text trees :=
  ⟨h, (Inert.whole hinert).uncut, hne⟩

theorem ident {name : String} (h : Terminal.IsLexeme .ident name) :
    IsChunk name [lexeme .ident name] := by
  refine .of_inert (.of_lexeme h rfl rfl nofun) ?_ (by simp)
  rintro tree (_ | ⟨_, ⟨⟩⟩)
  exact .of_kind nofun

/-- A value as a literal is a chunk. -/
theorem quote (value : String) :
    IsChunk (Literal.quote value) [lexeme .string (Literal.quote value)] := by
  obtain ⟨halone, hfirm⟩ := Literal.isLexeme_quote value
  refine .of_inert (.of_lexeme halone rfl rfl fun _ => hfirm) ?_ (by simp)
  rintro tree (_ | ⟨_, ⟨⟩⟩)
  exact .of_kind nofun

/-- Chunks with commas between them are the chunks of a list. -/
theorem list {texts : List String} {parts : List (List TokenTree)}
    (h : List.Forall₂ IsChunk texts parts) :
    Prints (String.intercalate ", " texts).toList ([lexeme .punct ","].intercalate parts) ∧
      splitCommas ([lexeme .punct ","].intercalate parts) = parts := by
  constructor
  · rw [String.toList_intercalate]
    refine .intercalate ?_
    rw [List.forall₂_map_left_iff]
    exact h.imp fun _ _ hchunk => hchunk.prints
  · refine splitCommas_intercalate rfl fun part hpart => ?_
    obtain ⟨text, _, hchunk⟩ := exists_of_forall₂ h.flip part hpart
    exact ⟨hchunk.uncut, hchunk.ne_nil⟩

end IsChunk

/-! ### Paths -/

section Paths

open Terminal (IsLexeme)

/-- Identifiers with two colons between them, and perhaps two colons in front. -/
def IsPath (text : String) : Prop :=
  ∃ leading ∈ ["", "::"], ∃ names : List String, names ≠ [] ∧
    (∀ name ∈ names, IsLexeme .ident name) ∧ text = leading ++ String.intercalate "::" names

def IsPathWord (word : TokenKind × String) : Prop := word.1 = .ident ∨ word = (.punct, "::")

theorem written_colons {text : List Char} {words : List (TokenKind × String)}
    (h : Written text words) : Written ([':', ':'] ++ text) ((.punct, "::") :: words) := by
  have halone : IsLexeme .punct "::" := by decide
  exact h.lexeme halone rfl ⟨by simp, nofun⟩

theorem exists_written_names {names : List String} (hne : names ≠ [])
    (h : ∀ name ∈ names, IsLexeme .ident name) :
    ∃ words, words ≠ [] ∧ (∀ word ∈ words, IsPathWord word) ∧
      Written ([':', ':'].intercalate (names.map String.toList)) words := by
  induction names with
  | nil => exact absurd rfl hne
  | cons name names ih =>
    obtain ⟨hname, hnames⟩ := List.forall_mem_cons.1 h
    cases names with
    | nil =>
      have hwritten := Written.nil.lexeme hname rfl
        (Terminal.follows_of_bounded rfl nofun Terminal.bounded_nil)
      rw [List.append_nil] at hwritten
      exact ⟨[(.ident, name)], by simp, by simp [IsPathWord], by simpa using hwritten⟩
    | cons next names =>
      obtain ⟨words, -, hwords, hwritten⟩ := ih (by simp) hnames
      refine ⟨(.ident, name) :: (.punct, "::") :: words, by simp, ?_, ?_⟩
      · simpa [IsPathWord] using hwords
      · rw [List.map_cons, List.map_cons, List.intercalate_cons_cons, ← List.map_cons,
          List.append_assoc]
        refine (written_colons hwritten).lexeme hname rfl (Terminal.follows_ident _ ?_ ?_ ?_ ?_)
        all_goals
          rintro _ ⟨⟩
          decide

theorem IsPath.exists_written {text : String} (h : IsPath text) :
    ∃ words, words ≠ [] ∧ (∀ word ∈ words, IsPathWord word) ∧ Written text.toList words := by
  obtain ⟨leading, hleading, names, hne, hnames, rfl⟩ := h
  obtain ⟨words, hwords, hall, hwritten⟩ := exists_written_names hne hnames
  rw [String.toList_append, String.toList_intercalate]
  simp only [List.mem_cons, List.not_mem_nil, or_false] at hleading
  rcases hleading with rfl | rfl
  · exact ⟨words, hwords, hall, hwritten⟩
  · exact ⟨(.punct, "::") :: words, by simp, List.forall_mem_cons.2 ⟨.inr rfl, hall⟩,
      written_colons hwritten⟩

def lexemes (words : List (TokenKind × String)) : List TokenTree :=
  words.map fun word => lexeme word.1 word.2

theorem words_lexemes (list : List (TokenKind × String)) : words (lexemes list) = list := by
  induction list with
  | nil => rfl
  | cons word list ih =>
    rw [lexemes, List.map_cons, words_lexeme_cons]
    exact congrArg _ ih

theorem IsPathWord.isLocal {word : TokenKind × String} (h : IsPathWord word) :
    Terminal.isLocal word = true := by
  rcases h with hident | rfl
  · rw [Terminal.isLocal, hident]
  · rfl

theorem formed_lexemes {list : List (TokenKind × String)}
    (h : ∀ word ∈ list, word.1.isDelimiter = false) : Formed (lexemes list) := by
  induction list with
  | nil => exact .nil
  | cons word list ih =>
    obtain ⟨hword, hlist⟩ := List.forall_mem_cons.1 h
    exact .token hword (ih hlist)

theorem groups_lexemes (d : Delimiter) (list : List (TokenKind × String)) :
    groups d (lexemes list) = [] := by
  induction list with
  | nil => rfl
  | cons word list ih => exact ih

theorem uncut_lexemes {list : List (TokenKind × String)} (h : ∀ word ∈ list, IsPathWord word) :
    Uncut (lexemes list) := by
  refine (Inert.whole fun tree htree => ?_).uncut
  obtain ⟨word, hword, rfl⟩ := List.mem_map.1 htree
  rcases h word hword with hident | rfl
  · exact .of_kind fun hpunct => absurd (hident.symm.trans hpunct) (by decide)
  · exact @Inert.of_mark "::" ⟨.whole .punct "::", rfl⟩ (by decide)

/-- A path is a chunk without groups. -/
theorem IsPath.exists_chunk {text : String} (h : IsPath text) :
    ∃ trees, IsChunk text trees ∧ ∀ d, groups d trees = [] := by
  obtain ⟨list, hne, hlist, hwritten⟩ := h.exists_written
  refine ⟨lexemes list, ⟨.of_written ?_ (formed_lexemes fun word hword => ?_) fun t ht => ?_,
    uncut_lexemes hlist, by simpa [lexemes] using hne⟩, fun d => groups_lexemes d list⟩
  · rwa [words_lexemes]
  · rcases hlist word hword with hident | rfl
    · rw [hident]
      rfl
    · rfl
  · have hword : t.bare ∈ words (lexemes list) := List.mem_map_of_mem ht
    rw [words_lexemes] at hword
    exact (hlist _ hword).isLocal

theorem intercalate_concat {α : Type} (sep last : List α) {parts : List (List α)}
    (hne : parts ≠ []) :
    sep.intercalate (parts ++ [last]) = sep.intercalate parts ++ (sep ++ last) := by
  induction parts with
  | nil => exact absurd rfl hne
  | cons part parts ih =>
    cases parts with
    | nil => simp
    | cons next parts =>
      have hrest := ih (by simp)
      rw [List.cons_append] at hrest
      rw [List.cons_append, List.cons_append, List.intercalate_cons_cons, hrest,
        List.intercalate_cons_cons]
      simp

theorem IsPath.concat {text name : String} (h : IsPath text) (hname : IsLexeme .ident name) :
    IsPath (text ++ "::" ++ name) := by
  obtain ⟨leading, hleading, names, hne, hnames, rfl⟩ := h
  refine ⟨leading, hleading, names ++ [name], by simp, ?_, ?_⟩
  · exact List.forall_mem_append.2 ⟨hnames, by simpa using hname⟩
  · rw [← String.toList_inj]
    simp only [String.toList_append, String.toList_intercalate, List.map_append, List.map_cons,
      List.map_nil]
    rw [intercalate_concat _ _ (by simpa using hne)]
    simp

end Paths

/-! ### The same trees -/

section
variable {xs ys : List TokenTree}

theorem Same.words (h : Same xs ys) : words xs = words ys := by
  unfold TokenTree.words
  induction h with
  | nil => rfl
  | token hbare _ ih =>
    rw [flatten_token_cons, flatten_token_cons, List.map_cons, List.map_cons, hbare, ih]
  | group hopener _ hcloser _ ihinner ihrest =>
    simp only [flatten_group_cons, List.map_cons, List.map_append, hopener, hcloser, ihinner,
      ihrest]

theorem Same.groups (h : Same xs ys) (d : Delimiter) :
    List.Forall₂ (fun g g' => Same g.inner g'.inner) (groups d xs) (groups d ys) := by
  induction h with
  | nil => exact .nil
  | token _ _ ih => exact ih
  | @group d' _ _ _ _ _ _ _ _ _ hinner _ _ _ ih =>
    by_cases hd : d' = d
    · simpa [TokenTree.groups, group?, hd] using ⟨hinner, ih⟩
    · simpa [TokenTree.groups, group?, hd] using ih

theorem isPunct_congr {t u : Token} (h : t.bare = u.bare) (text : String) :
    (token t).isPunct text = (token u).isPunct text := by
  obtain ⟨hkind, htext⟩ := Prod.mk.inj h
  by_cases hpunct : u.kind = .punct ∧ u.text = text <;>
    simp [isPunct, isToken, token?, Token.isPunct, hkind, htext, hpunct]

/-- The same trees are cut by the same commas. -/
theorem Same.commaChunks (h : Same xs ys) (depth : Nat) :
    Same (commaChunks depth xs).1 (commaChunks depth ys).1 ∧
      List.Forall₂ Same (commaChunks depth xs).2 (commaChunks depth ys).2 := by
  induction h generalizing depth with
  | nil => exact ⟨.nil, .nil⟩
  | @token t u _ _ hbare _ ih =>
    have hpunct := isPunct_congr hbare
    rw [TokenTree.commaChunks, TokenTree.commaChunks, hpunct ","]
    split
    · exact ⟨.nil, .cons (ih 0).1 (ih 0).2⟩
    · have hdepth : angleDepth depth (.token t) = angleDepth depth (.token u) := by
        simp only [angleDepth, hpunct]
      rw [hdepth]
      exact ⟨.token hbare (ih _).1, (ih _).2⟩
  | group hopener hinner hcloser _ _ ih =>
    exact ⟨.group hopener hinner hcloser (ih depth).1, (ih depth).2⟩

theorem dropEmptyLast_same {chunks chunks' : List (List TokenTree)}
    (h : List.Forall₂ Same chunks chunks') :
    List.Forall₂ Same (dropEmptyLast chunks) (dropEmptyLast chunks') := by
  induction h with
  | nil => exact .nil
  | @cons chunk chunk' chunks chunks' hchunk hchunks ih =>
    cases hchunks with
    | nil =>
      cases hchunk with
      | nil => exact .nil
      | token hbare hrest => exact .cons (.token hbare hrest) .nil
      | group hopener hinner hcloser hrest => exact .cons (.group hopener hinner hcloser hrest) .nil
    | cons _ _ =>
      rw [dropEmptyLast_cons_cons, dropEmptyLast_cons_cons]
      exact .cons hchunk ih

theorem Same.splitCommas (h : Same xs ys) :
    List.Forall₂ Same (splitCommas xs) (splitCommas ys) :=
  dropEmptyLast_same (.cons (h.commaChunks 0).1 (h.commaChunks 0).2)

end

end LuaBindings.TokenTree
