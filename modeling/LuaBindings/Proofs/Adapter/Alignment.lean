import LuaBindings.Adapter
import LuaBindings.Proofs.Adapter.Hygiene
import LuaBindings.Proofs.Declaration.Neighbours
import LuaBindings.Proofs.RustType.Plain
import LuaBindings.Proofs.Signature.Classification

/-!
# The extraction of arguments

The statement that takes the arguments out of the pack lists patterns, types and names. Read
back from its text, the three lists have one row for each argument, in the order of the
arguments.
-/

set_option autoImplicit false

namespace LuaBindings.Adapter

open TokenTree

/-! ### Reading a statement -/

structure Row (α : Type) where
  pattern : α
  type : α
  name : α
  deriving DecidableEq, Repr

def Row.map {α β : Type} (f : α → β) (row : Row α) : Row β :=
  ⟨f row.pattern, f row.type, f row.name⟩

/-- What a statement that takes arguments out of a pack is made of. -/
structure Extraction where
  /-- The tokens outside of all groups, and the arguments of the call before the names. -/
  frame : List Words
  patterns : List Words
  types : List Words
  names : List Words
  deriving DecidableEq, Repr

def loose (trees : List TokenTree) : Words :=
  (trees.filterMap (token? fun _ => true)).map Token.bare

namespace Extraction

def ofRows (frame : List Words) (rows : List (Row Words)) : Extraction :=
  ⟨frame, rows.map Row.pattern, rows.map Row.type, rows.map Row.name⟩

/-- The pattern group, the type group and the name array of a statement, cut at their commas. -/
def ofTrees? (trees : List TokenTree) : Option Extraction := do
  let [patterns, types, call] := groups .paren trees | none
  let [pack, context, display, names] := splitCommas call.inner | none
  let [wrapped] := groups .paren names | none
  let [array] := groups .bracket wrapped.inner | none
  return {
    frame := [loose trees, words pack, words context, words display]
    patterns := (splitCommas patterns.inner).map words
    types := (splitCommas types.inner).map words
    names := (splitCommas array.inner).map words }

def ofText? (statement : String) : Option Extraction :=
  (TokenTree.ofSource statement).toOption.bind ofTrees?

end Extraction

/-! ### The rows of the arguments -/

def Reads (text : String) (list : Words) : Prop :=
  ∃ trees, TokenTree.ofSource text = .ok trees ∧ words trees = list

def Names (value : String) (list : Words) : Prop :=
  ∃ literal, list = [(.string, literal)] ∧ Literal.decode literal = some value

/-- The row of an argument: its binding, which is mutable just for a mutable value, its own
type or that of handles, and its own name. -/
structure Row.Takes (target : RuntimeTarget) (a : Argument) (row : Row Words) : Prop where
  pattern : row.pattern =
    (if a.isMutBinding && !a.passing.isHandle then [(.ident, "mut")] else []) ++ [(.ident, a.name)]
  value (type : RustType) : a.passing = .value type → row.type = words type.trees
  handle : a.passing.isHandle = true → Reads target.userdataType row.type
  name : Names a.name row.name

structure Row.IsTable (target : RuntimeTarget) (row : Row Words) : Prop where
  pattern : row.pattern = [(.ident, "_")]
  type : Reads target.tableType row.type
  name : Names tableArgument row.name

/-! ### Reading the same trees -/

theorem loose_of_same {xs ys : List TokenTree} (h : Same xs ys) : loose xs = loose ys := by
  induction h with
  | nil => rfl
  | token hbare _ ih => exact congrArg₂ List.cons hbare ih
  | group _ _ _ _ _ ih => exact ih

theorem map_words_of_same {xs ys : List (List TokenTree)} (h : List.Forall₂ Same xs ys) :
    xs.map words = ys.map words := by
  induction h with
  | nil => rfl
  | cons hfirst _ ih => rw [List.map_cons, List.map_cons, hfirst.words, ih]

theorem splitCommas_inner_of_same {g g' : Group} (h : Same g.inner g'.inner) :
    (splitCommas g'.inner).map words = (splitCommas g.inner).map words :=
  (map_words_of_same h.splitCommas).symm

/-- Trees that are the same as those of a statement are read as the statement. -/
theorem Extraction.ofTrees?_of_same {xs ys pack context display names : List TokenTree}
    {patterns types call wrapped array : Group} (h : Same xs ys)
    (hgroups : groups .paren xs = [patterns, types, call])
    (hcall : splitCommas call.inner = [pack, context, display, names])
    (hnames : groups .paren names = [wrapped]) (harray : groups .bracket wrapped.inner = [array]) :
    ofTrees? ys = some {
      frame := [loose xs, words pack, words context, words display]
      patterns := (splitCommas patterns.inner).map words
      types := (splitCommas types.inner).map words
      names := (splitCommas array.inner).map words } := by
  -- the groups and the chunks on the other side, one for each
  have hgroups' := h.groups .paren
  simp only [hgroups, List.forall₂_cons_left_iff, List.forall₂_nil_left_iff] at hgroups'
  obtain ⟨patterns', _, hpatterns, ⟨types', _, htypes, ⟨call', _, hcall', rfl, rfl⟩, rfl⟩, hys⟩ :=
    hgroups'
  have hchunks := hcall'.splitCommas
  simp only [hcall, List.forall₂_cons_left_iff, List.forall₂_nil_left_iff] at hchunks
  obtain ⟨pack', _, hpack, ⟨context', _, hcontext, ⟨display', _, hdisplay,
    ⟨names', _, hnames', rfl, rfl⟩, rfl⟩, rfl⟩, hsplit⟩ := hchunks
  have hwrapped := hnames'.groups .paren
  simp only [hnames, List.forall₂_cons_left_iff, List.forall₂_nil_left_iff] at hwrapped
  obtain ⟨wrapped', _, hwrapped', rfl, hparens⟩ := hwrapped
  have harray' := hwrapped'.groups .bracket
  simp only [harray, List.forall₂_cons_left_iff, List.forall₂_nil_left_iff] at harray'
  obtain ⟨array', _, harray', rfl, hbrackets⟩ := harray'
  simp only [ofTrees?, hys, hsplit, hparens, hbrackets, loose_of_same h, hpack.words,
    hcontext.words, hdisplay.words, splitCommas_inner_of_same hpatterns,
    splitCommas_inner_of_same htypes, splitCommas_inner_of_same harray']
  rfl

/-! ### Writing a statement -/

def tupleTrees : List (List TokenTree) → List TokenTree
  | [part] => part ++ [lexeme .punct ","]
  | parts => [lexeme .punct ","].intercalate parts

/-- The members of a tuple are read back as its chunks. -/
theorem exists_tuple {texts : List String} {parts : List (List TokenTree)}
    (h : List.Forall₂ IsChunk texts parts) :
    ∃ inner, (tupleText texts).toList = '(' :: (inner ++ [')']) ∧
      Prints inner (tupleTrees parts) ∧ splitCommas (tupleTrees parts) = parts := by
  obtain ⟨hprints, hsplit⟩ := IsChunk.list h
  cases h with
  | nil => exact ⟨[], rfl, .nil, rfl⟩
  | @cons text part texts parts hfirst hrest =>
    cases hrest with
    | nil =>
      refine ⟨text.toList ++ [','], ?_, ?_, ?_⟩
      · change ("(" ++ text ++ ",)").toList = _
        simp
      · exact hfirst.prints.append .comma (Terminal.bounded_cons (by decide) _)
      · exact hfirst.uncut.splitCommas_comma rfl []
    | cons =>
      refine ⟨_, ?_, hprints, hsplit⟩
      simp [tupleText]

structure Slot.Chunks (slot : Slot) (row : Row (List TokenTree)) : Prop where
  pattern : IsChunk slot.pattern.text row.pattern
  type : IsChunk slot.type row.type
  name : IsChunk (Literal.quote slot.name) row.name

theorem forall₂_chunks {slots : List Slot} {rows : List (Row (List TokenTree))}
    (h : List.Forall₂ Slot.Chunks slots rows) :
    List.Forall₂ IsChunk (slots.map fun slot => slot.pattern.text) (rows.map Row.pattern) ∧
      List.Forall₂ IsChunk (slots.map Slot.type) (rows.map Row.type) ∧
      List.Forall₂ IsChunk (slots.map fun slot => Literal.quote slot.name) (rows.map Row.name) := by
  simp only [List.forall₂_map_left_iff, List.forall₂_map_right_iff]
  exact ⟨h.imp fun _ _ hslot => hslot.pattern, h.imp fun _ _ hslot => hslot.type,
    h.imp fun _ _ hslot => hslot.name⟩

/-- The arguments of the call: the pack, the context, the name of the method and the names. -/
def callTexts (context displayName : String) (names : List String) : List String :=
  [packBinding, context, "Some(" ++ Literal.quote displayName ++ ")",
    "Some(" ++ ("&[" ++ String.intercalate ", " names ++ "]") ++ ")"]

def callParts (context displayName : String) (names : List (List TokenTree)) :
    List (List TokenTree) :=
  [[lexeme .ident packBinding], [lexeme .ident context],
    [lexeme .ident "Some", enclosed .paren [lexeme .string (Literal.quote displayName)]],
    [lexeme .ident "Some", enclosed .paren [lexeme .punct "&",
      enclosed .bracket ([lexeme .punct ","].intercalate names)]]]

def extractTrees (path : List TokenTree) (context displayName : String)
    (rows : List (Row (List TokenTree))) : List TokenTree :=
  lexeme .ident "let" :: enclosed .paren (tupleTrees (rows.map Row.pattern)) ::
    lexeme .punct ":" :: enclosed .paren (tupleTrees (rows.map Row.type)) ::
    lexeme .punct "=" :: (path ++
      enclosed .paren ([lexeme .punct ","].intercalate
        (callParts context displayName (rows.map Row.name))) ::
      [lexeme .punct "?", lexeme .punct ";"])

def frame (path : List TokenTree) (context displayName : String) : List Words :=
  [(.ident, "let") :: (.punct, ":") :: (.punct, "=") ::
      (loose path ++ [(.punct, "?"), (.punct, ";")]),
    [(.ident, packBinding)], [(.ident, context)],
    [(.ident, "Some"), (.opener .paren, "("), (.string, Literal.quote displayName),
      (.closer .paren, ")")]]

section
variable {target : RuntimeTarget} {path : List TokenTree} {context : String}

/-- An option of something that is there is a chunk. -/
theorem isChunk_some {text : String} {trees : List TokenTree} (h : Prints text.toList trees) :
    IsChunk ("Some(" ++ text ++ ")") [lexeme .ident "Some", enclosed .paren trees] := by
  have hsome : Prints "Some".toList [lexeme .ident "Some"] := .of_lexeme rfl rfl rfl nofun
  have hprints := hsome.append (h.group .paren .nil) (Terminal.bounded_cons (by decide) _)
  refine .of_inert ?_ ?_ (by simp)
  · simpa [Delimiter.openText, Delimiter.closeText] using hprints
  · simp only [List.mem_cons, List.not_mem_nil, or_false]
    rintro tree (rfl | rfl)
    · exact .of_kind nofun
    · exact .of_group _ _ _ _

theorem isChunk_callParts {texts : List String} {names : List (List TokenTree)}
    (hcontext : Terminal.IsLexeme .ident context) (hnames : List.Forall₂ IsChunk texts names)
    (displayName : String) :
    List.Forall₂ IsChunk (callTexts context displayName texts)
      (callParts context displayName names) := by
  have hand : Prints "&".toList [lexeme .punct "&"] := .of_lexeme rfl rfl rfl nofun
  have harray := hand.append ((IsChunk.list hnames).1.group .bracket .nil)
    (Terminal.bounded_cons (by decide) _)
  refine .cons (.ident rfl) (.cons (.ident hcontext)
    (.cons (isChunk_some ?_) (.cons (isChunk_some ?_) .nil)))
  · exact (IsChunk.quote displayName).prints
  · simpa [Delimiter.openText, Delimiter.closeText] using harray

theorem text_extract (slots : List Slot) (context displayName : String) :
    (SetupStatement.extract slots context displayName).text target =
      "let " ++ tupleText (slots.map fun slot => slot.pattern.text) ++ ": " ++
        tupleText (slots.map Slot.type) ++ " = " ++ target.argsPath ++ "(" ++
        String.intercalate ", " (callTexts context displayName
          (slots.map fun slot => Literal.quote slot.name)) ++ ")?;" := by
  unfold SetupStatement.text callTexts
  simp only [toString, ← String.toList_inj, String.toList_append, String.toList_intercalate]
  simp

/-- The text of the statement prints its trees. -/
theorem prints_extract {slots : List Slot} {rows : List (Row (List TokenTree))}
    (hpath : IsChunk target.argsPath path) (hcontext : Terminal.IsLexeme .ident context)
    (hrows : List.Forall₂ Slot.Chunks slots rows) (displayName : String) :
    Prints ((SetupStatement.extract slots context displayName).text target).toList
      (extractTrees path context displayName rows) := by
  obtain ⟨hpatterns, htypes, hnames⟩ := forall₂_chunks hrows
  obtain ⟨patterns, hpatternText, hpatternTrees, -⟩ := exists_tuple hpatterns
  obtain ⟨types, htypeText, htypeTrees, -⟩ := exists_tuple htypes
  have hcall := (IsChunk.list (isChunk_callParts hcontext hnames displayName)).1
  have hmark (text : String) (halone : Terminal.IsLexeme .punct text) :
      Prints text.toList [lexeme .punct text] := .of_lexeme halone rfl rfl nofun
  have hlet : Prints "let".toList [lexeme .ident "let"] := .of_lexeme rfl rfl rfl nofun
  have hbounded {c : Char} {text : List Char} (hc : c ∈ Terminal.boundaries) :
      Terminal.Bounded (c :: text) := Terminal.bounded_cons hc text
  -- from the end to the front
  have hend := (hmark "?" rfl).append (hmark ";" rfl) (hbounded (by decide))
  have hright := hpath.prints.append (hcall.group .paren hend) (hbounded (by decide))
  have hequals := (hmark "=" rfl).append hright.blank (hbounded (by decide))
  have hcolon := (hmark ":" rfl).append (htypeTrees.group .paren hequals.blank).blank
    (hbounded (by decide))
  have hwhole := hlet.append (hpatternTrees.group .paren hcolon).blank (hbounded (by decide))
  rw [text_extract]
  simpa [hpatternText, htypeText, Delimiter.openText, Delimiter.closeText, extractTrees]
    using hwhole

theorem groups_extractTrees (hgroups : ∀ d, groups d path = []) (context displayName : String)
    (rows : List (Row (List TokenTree))) :
    groups .paren (extractTrees path context displayName rows) =
      [⟨.paren, .whole (.opener .paren) "(", tupleTrees (rows.map Row.pattern),
          .whole (.closer .paren) ")"⟩,
        ⟨.paren, .whole (.opener .paren) "(", tupleTrees (rows.map Row.type),
          .whole (.closer .paren) ")"⟩,
        ⟨.paren, .whole (.opener .paren) "(", [lexeme .punct ","].intercalate
          (callParts context displayName (rows.map Row.name)), .whole (.closer .paren) ")"⟩] := by
  change _ :: _ :: (path ++ _).filterMap _ = _
  rw [List.filterMap_append, ← groups, hgroups]
  rfl

theorem loose_extractTrees (path : List TokenTree) (context displayName : String)
    (rows : List (Row (List TokenTree))) :
    loose (extractTrees path context displayName rows) =
      (.ident, "let") :: (.punct, ":") :: (.punct, "=") ::
        (loose path ++ [(.punct, "?"), (.punct, ";")]) := by
  change _ :: _ :: _ :: ((path ++ _).filterMap _).map _ = _
  rw [List.filterMap_append, List.map_append]
  rfl

/-- The text of the statement is read back row by row. -/
theorem ofText?_extract {slots : List Slot} {rows : List (Row (List TokenTree))}
    (hpath : IsChunk target.argsPath path) (hgroups : ∀ d, groups d path = [])
    (hcontext : Terminal.IsLexeme .ident context)
    (hrows : List.Forall₂ Slot.Chunks slots rows) (displayName : String) :
    Extraction.ofText? ((SetupStatement.extract slots context displayName).text target) =
      some (.ofRows (frame path context displayName) (rows.map (Row.map words))) := by
  obtain ⟨hpatterns, htypes, hnames⟩ := forall₂_chunks hrows
  obtain ⟨_, _, _, hpatternSplit⟩ := exists_tuple hpatterns
  obtain ⟨_, _, _, htypeSplit⟩ := exists_tuple htypes
  have hcallSplit := (IsChunk.list (isChunk_callParts hcontext hnames displayName)).2
  have hnameSplit := (IsChunk.list hnames).2
  obtain ⟨again, hagain, hsame⟩ := (prints_extract hpath hcontext hrows displayName).exists_same
  have hread := Extraction.ofTrees?_of_same hsame
    (groups_extractTrees hgroups context displayName rows) hcallSplit rfl rfl
  rw [Extraction.ofText?, TokenTree.ofSource, hagain]
  refine hread.trans ?_
  rw [loose_extractTrees]
  dsimp only
  rw [hpatternSplit, htypeSplit, hnameSplit]
  simp only [Extraction.ofRows, List.map_map]
  rfl

end

/-! ### The rows of the arguments -/

/-- The crate and the function that extracts arguments are named by paths. -/
structure HasPaths (target : RuntimeTarget) : Prop where
  crate : IsPath target.crate
  argsPath : IsPath target.argsPath

theorem hasPaths_default : HasPaths .default where
  crate := ⟨"", by simp, ["mlua"], by simp, by decide, rfl⟩
  argsPath := ⟨"", by simp, ["crate", "lua", "FromArgs", "from_arguments"], by simp, by decide, rfl⟩

theorem reads_words {text : String} {trees : List TokenTree} (h : Prints text.toList trees) :
    Reads text (words trees) := by
  obtain ⟨again, hagain, hsame⟩ := h.exists_same
  refine ⟨again, ?_, hsame.words.symm⟩
  rw [TokenTree.ofSource, hagain]

theorem names_quote (value : String) :
    Names value (words [lexeme .string (Literal.quote value)]) := by
  refine ⟨Literal.quote value, rfl, ?_⟩
  rw [Literal.quote_eq, Literal.decode_quoted, Literal.unescape_flatMap_quoteChar, Option.map_some,
    String.ofList_toList]

def bindingTrees (isMut : Bool) (name : String) : List TokenTree :=
  (if isMut then [lexeme .ident "mut"] else []) ++ [lexeme .ident name]

theorem words_bindingTrees (isMut : Bool) (name : String) : words (bindingTrees isMut name) =
    (if isMut then [(.ident, "mut")] else []) ++ [(.ident, name)] := by
  cases isMut <;> rfl

theorem isChunk_binding {name : String} (h : Terminal.IsLexeme .ident name) (isMut : Bool) :
    IsChunk (Pattern.binding isMut name).text (bindingTrees isMut name) := by
  cases isMut with
  | false => exact .ident h
  | true =>
    have hmut : Prints "mut".toList [lexeme .ident "mut"] := .of_lexeme rfl rfl rfl nofun
    have hprints := hmut.append (IsChunk.ident h).prints.blank (Terminal.bounded_cons (by decide) _)
    have htext : (Pattern.binding true name).text.toList = "mut".toList ++ ' ' :: name.toList := by
      simp [Pattern.text, mutText]
    refine .of_inert (by rwa [htext]) ?_ (by simp [bindingTrees])
    simp only [bindingTrees, if_true, List.singleton_append, List.mem_cons, List.not_mem_nil,
      or_false]
    rintro tree (rfl | rfl)
    · exact .of_kind nofun
    · exact .of_kind nofun

theorem slot_name (target : RuntimeTarget) (a : Argument) : (slot target a).name = a.name := by
  unfold slot
  split <;> rfl

section
variable {target : RuntimeTarget} {text : List Char} {whole : List TokenTree} {p : Parameter}

/-- A parameter is bound by a name of the source. -/
theorem isLexeme_of_binds (htext : ofText text = .ok whole) (hstands : p.StandsIn whole)
    {name : String} {isMut : Bool} (hbinds : p.Binds name isMut) :
    Terminal.IsLexeme .ident name := by
  obtain ⟨modes, t, hpattern, -, hkind, -, rfl, -⟩ := hbinds
  rw [← hkind]
  refine hstands.pattern.isLexeme htext ?_
  rw [hpattern]
  simp

theorem isChunk_type (htext : ofText text = .ok whole) (hstands : p.StandsIn whole)
    (hplain : p.type.Plain) (hvalue : ∀ trees lifetime isMut elem,
      p.type ≠ .reference trees lifetime isMut elem) : IsChunk p.type.text p.type.trees := by
  obtain ⟨anchor, hreads⟩ := hstands.reads
  have hformed := hstands.type.formed htext
  refine ⟨hstands.type.prints htext (RustType.local_of_ofTrees hreads hplain hformed), ?_, ?_⟩
  · refine RustType.uncut_of_ofTrees hreads ?_ hvalue
    rintro other hother
    rw [hother] at hplain
    cases hplain
  · intro hnil
    rw [hnil, RustType.ofTrees] at hreads
    cases hreads

theorem exists_type {a : Argument} (htarget : HasPaths target) (htext : ofText text = .ok whole)
    (hstands : p.StandsIn whole) (hgives : p.Gives a) (hplain : a.passing.type.Plain) :
    ∃ trees, IsChunk (slot target a).type trees ∧
      (∀ type, a.passing = .value type → trees = type.trees) ∧
      (a.passing.isHandle = true → Reads target.userdataType (words trees)) := by
  unfold slot
  cases hpassing : a.passing with
  | value type =>
    obtain ⟨rfl, hvalue⟩ := (hgives.value type).1 hpassing
    rw [hpassing] at hplain
    refine ⟨p.type.trees, isChunk_type htext hstands hplain hvalue, ?_, nofun⟩
    rintro _ ⟨⟩
    rfl
  | handle isMut pointee =>
    have hpath : IsPath target.userdataType := htarget.crate.concat (by decide)
    obtain ⟨trees, hchunk, -⟩ := hpath.exists_chunk
    exact ⟨trees, hchunk, nofun, fun _ => reads_words hchunk.prints⟩

theorem exists_row {a : Argument} (htarget : HasPaths target) (htext : ofText text = .ok whole)
    (hstands : p.StandsIn whole) (hgives : p.Gives a) (hplain : a.passing.type.Plain) :
    ∃ row, (slot target a).Chunks row ∧ (row.map words).Takes target a := by
  have hname := isLexeme_of_binds htext hstands hgives.binds
  obtain ⟨trees, hchunk, hvalue, hhandle⟩ := exists_type htarget htext hstands hgives hplain
  refine ⟨⟨bindingTrees (a.isMutBinding && !a.passing.isHandle) a.name, trees,
    [lexeme .string (Literal.quote a.name)]⟩, ⟨?_, hchunk, ?_⟩, ?_⟩
  · rw [pattern_slot]
    exact isChunk_binding hname _
  · rw [slot_name]
    exact .quote a.name
  · exact ⟨words_bindingTrees _ _, fun type htype => congrArg words (hvalue type htype), hhandle,
      names_quote a.name⟩

/-- The rows of the arguments, in their order. -/
theorem exists_rows {params : List Parameter} {args : List Argument} (htarget : HasPaths target)
    (htext : ofText text = .ok whole) (hstands : ∀ p ∈ params, p.StandsIn whole)
    (hgives : List.Forall₂ Parameter.Gives params args)
    (hplain : ∀ a ∈ args, a.passing.type.Plain) :
    ∃ rows, List.Forall₂ Slot.Chunks (args.map (slot target)) rows ∧
      List.Forall₂ (Row.Takes target) args (rows.map (Row.map words)) := by
  induction hgives with
  | nil => exact ⟨[], .nil, .nil⟩
  | cons hfirst _ ih =>
    obtain ⟨hstandsFirst, hstandsRest⟩ := List.forall_mem_cons.1 hstands
    obtain ⟨hplainFirst, hplainRest⟩ := List.forall_mem_cons.1 hplain
    obtain ⟨row, hchunks, htakes⟩ := exists_row htarget htext hstandsFirst hfirst hplainFirst
    obtain ⟨rows, hchunksRest, htakesRest⟩ := ih hstandsRest hplainRest
    exact ⟨row :: rows, .cons hchunks hchunksRest, .cons htakes htakesRest⟩

/-- The row of the table. -/
theorem exists_table (htarget : HasPaths target) :
    ∃ row : Row (List TokenTree),
      Slot.Chunks ⟨.wildcard, target.tableType, tableArgument⟩ row ∧
        (row.map words).IsTable target := by
  have hpath : IsPath target.tableType := htarget.crate.concat (by decide)
  obtain ⟨trees, hchunk, -⟩ := hpath.exists_chunk
  have hwildcard : Terminal.IsLexeme .ident "_" := by decide
  exact ⟨⟨[lexeme .ident "_"], trees, [lexeme .string (Literal.quote tableArgument)]⟩,
    ⟨.ident hwildcard, hchunk, .quote tableArgument⟩,
    ⟨rfl, reads_words hchunk.prints, names_quote tableArgument⟩⟩

end

/-! ### The statements behind it -/

structure Handle where
  name : String
  isMut : Bool
  pointee : RustType
  isMutBinding : Bool

def handle? (a : Argument) : Option Handle :=
  match a.passing with
  | .value _ => none
  | .handle isMut pointee => some ⟨a.name, isMut, pointee, a.isMutBinding⟩

namespace Handle

def guard (target : RuntimeTarget) (h : Handle) : String :=
  if h.isMut then
    s!"let mut {guardName h.name}: {target.refMutGuard}<{h.pointee.text}> = {h.name}.borrow_mut()?;"
  else s!"let {guardName h.name}: {target.refGuard}<{h.pointee.text}> = {h.name}.borrow()?;"

/-- The statement that binds the name again, to the borrowed value. -/
def rebinding (h : Handle) : String :=
  s!"let {mutText h.isMutBinding}{h.name} = &{mutText h.isMut}*{guardName h.name};"

end Handle

theorem texts_borrowStatements (target : RuntimeTarget) (args : List Argument) :
    (args.flatMap borrowStatements).map (SetupStatement.text target) =
      (args.filterMap handle?).flatMap fun h => [h.guard target, h.rebinding] := by
  induction args with
  | nil => rfl
  | cons a args ih =>
    rw [List.flatMap_cons, List.map_append, ih]
    cases hpassing : a.passing with
    | value type => simp [borrowStatements, handle?, hpassing]
    | handle isMut pointee =>
      have hhandle : handle? a = some ⟨a.name, isMut, pointee, a.isMutBinding⟩ := by
        rw [handle?, hpassing]
      rw [List.filterMap_cons_some hhandle, List.flatMap_cons, borrowStatements, hpassing]
      cases isMut <;> rfl

/-! ### Setups -/

/-- The table comes first where the adapter is called through it. -/
def leadingRows (table : Row Words) : CallConvention → List (Row Words)
  | .receiver => []
  | .table => [table]

/-- The setups of a method. The first statement has one row for each argument, behind the row
of the table if there is one; the others borrow and bind the handles. The setups differ only in
the row of the table. -/
def Aligned (prepared : PreparedMethod) : Prop :=
  ∃ (frame : List Words) (table : Row Words) (rows : List (Row Words)),
    table.IsTable prepared.target ∧
    List.Forall₂ (Row.Takes prepared.target) prepared.signature.args rows ∧
    ∀ convention, ∃ first,
      (prepared.closure convention).setup =
        first :: (prepared.signature.args.filterMap handle?).flatMap
          (fun h => [h.guard prepared.target, h.rebinding]) ∧
      Extraction.ofText? first = some (.ofRows frame (leadingRows table convention ++ rows))

/-- The parameters of a signature are the context and the arguments. -/
theorem splits_of_ofMethod {target : RuntimeTarget} {m : Method} {s : Signature}
    (h : Signature.ofMethod target m = .ok s) :
    Signature.Splits target m.params s.context s.args := by
  obtain ⟨options, -, h⟩ := exists_of_bind_eq_ok h
  obtain ⟨context, params, args, hsplit, hrest, -, -, hargs, rfl⟩ :=
    Signature.classify_eq_ok_iff.1 h
  exact (Signature.steps_iff.1 ⟨params, hsplit, hrest, hargs⟩).2

/-- What an adapter binds the context by is an identifier. -/
theorem isLexeme_context {target : RuntimeTarget} {text : List Char} {whole : List TokenTree}
    {params : List Parameter} {context : Option ContextBinding} {args : List Argument}
    (htext : ofText text = .ok whole) (hstands : ∀ p ∈ params, p.StandsIn whole)
    (h : Signature.Splits target params context args) :
    Terminal.IsLexeme .ident
      ((context.map ContextBinding.name).getD PreparedMethod.contextBinding) := by
  cases h with
  | context _ hbinds _ => exact isLexeme_of_binds htext (hstands _ List.mem_cons_self) hbinds
  | arguments _ _ => decide

/-- The arguments are given by some of the parameters, in their order. -/
theorem exists_params {target : RuntimeTarget} {params : List Parameter}
    {context : Option ContextBinding} {args : List Argument}
    (h : Signature.Splits target params context args) :
    ∃ taken, taken ⊆ params ∧ List.Forall₂ Parameter.Gives taken args := by
  cases h with
  | context _ _ hargs => exact ⟨_, List.subset_cons_self _ _, hargs⟩
  | arguments _ hargs => exact ⟨_, List.Subset.refl _, hargs⟩

theorem setup_eq (target : RuntimeTarget) (convention : CallConvention) (context : String)
    {s : Signature} (hargs : s.args ≠ []) :
    (setup target convention context s).map (SetupStatement.text target) =
      (SetupStatement.extract (slots target convention s.args) context s.displayName).text target ::
        (s.args.filterMap handle?).flatMap fun h => [h.guard target, h.rebinding] := by
  rw [setup, if_neg (by simpa using hargs), List.map_cons, texts_borrowStatements]

/-- An adapter takes the pack just if it has a setup. -/
theorem getLast?_inputs (prepared : PreparedMethod) (convention : CallConvention) :
    (prepared.closure convention).inputs.getLast? =
      some (if (prepared.closure convention).setup = [] then "()" else packBinding) := by
  have hlast (c : Closure) : c.inputs.getLast? = some (c.pack.getD "()") := by
    rw [Closure.inputs, List.getLast?_append, List.getLast?_singleton, Option.some_or]
  rw [hlast]
  by_cases hargs : prepared.signature.args = []
  · simp [PreparedMethod.closure, setup, hargs]
  · have hne : (prepared.closure convention).setup ≠ [] := by
      rw [PreparedMethod.closure, setup_eq _ _ _ hargs]
      exact List.cons_ne_nil _ _
    have hpack : (prepared.closure convention).pack = some packBinding :=
      if_neg (by simpa using hargs)
    rw [if_neg hne, hpack, Option.getD_some]

/-- The adapters of a source take the pack just if they have a setup, and the setups are aligned
if the types of the parameters are references, paths and tuples all the way down. -/
theorem setup_aligned {source attrName : String} {impls : List ImplBlock} {impl : ImplBlock}
    {m : Method} {target : RuntimeTarget} {prepared : PreparedMethod} (htarget : HasPaths target)
    (hsource : ImplBlock.ofSource source attrName = .ok impls) (himpl : impl ∈ impls)
    (hm : m ∈ impl.methods) (hprepared : PreparedMethod.ofMethod target m = .ok prepared) :
    (∀ convention, (prepared.closure convention).inputs.getLast? =
      some (if (prepared.closure convention).setup = [] then "()" else packBinding)) ∧
    (prepared.signature.args ≠ [] → (∀ a ∈ prepared.signature.args, a.passing.type.Plain) →
      Aligned prepared) := by
  obtain ⟨s, hs, h⟩ := exists_of_bind_eq_ok hprepared
  cases h
  refine ⟨fun convention => ?_, fun hargs hplain => ?_⟩
  · exact getLast?_inputs _ convention
  · have hsplits := splits_of_ofMethod hs
    obtain ⟨whole, hwhole, hall⟩ := ImplBlock.standsIn_of_ofSource hsource
    have hstands := ((hall impl himpl).1.methods m hm).params
    obtain ⟨params, hsub, hgives⟩ := exists_params hsplits
    have hcontext := isLexeme_context hwhole hstands hsplits
    obtain ⟨path, hpath, hgroups⟩ := htarget.argsPath.exists_chunk
    obtain ⟨table, htableChunks, htable⟩ := exists_table htarget
    obtain ⟨rows, hchunks, htakes⟩ :=
      exists_rows htarget hwhole (fun p hp => hstands p (hsub hp)) hgives hplain
    let context := (s.context.map ContextBinding.name).getD PreparedMethod.contextBinding
    refine ⟨frame path context s.displayName, _, _, htable, htakes, fun convention =>
      ⟨_, setup_eq target convention context hargs, ?_⟩⟩
    cases convention with
    | receiver => exact ofText?_extract hpath hgroups hcontext hchunks s.displayName
    | table =>
      exact ofText?_extract hpath hgroups hcontext (.cons htableChunks hchunks) s.displayName

/-- A context, a tuple with commas of its own, and a handle. -/
theorem setup_aligned_tuple :
    let source := "#[lua_methods] impl T \x7b " ++
      "fn f<'a>(c: &'a Lua, mut at: (A<u8, 'a>, (i8,)), to: &mut T) \x7b\x7d \x7d"
    HasPaths .default ∧
    ∃ impls, ImplBlock.ofSource source ImplBlock.defaultMarker = .ok impls ∧
      ∃ impl ∈ impls, ∃ m ∈ impl.methods, ∃ prepared,
        PreparedMethod.ofMethod .default m = .ok prepared ∧
        prepared.signature.args.map Argument.name = ["at", "to"] ∧
        (∀ a ∈ prepared.signature.args, a.passing.type.Plain) ∧ Aligned prepared := by
  intro source
  have hruns : ((ImplBlock.ofSource source ImplBlock.defaultMarker).toOption.bind fun impls =>
      impls.head?.bind fun impl => impl.methods.head?.bind fun m =>
        (PreparedMethod.ofMethod .default m).toOption.map fun prepared =>
          (prepared.signature.args.map Argument.name,
            decide (∀ a ∈ prepared.signature.args, a.passing.type.Plain))) =
      some (["at", "to"], true) := by
    decide +kernel
  obtain ⟨impls, himpls, hruns⟩ := Option.bind_eq_some_iff.1 hruns
  obtain ⟨impl, himpl, hruns⟩ := Option.bind_eq_some_iff.1 hruns
  obtain ⟨m, hm, hruns⟩ := Option.bind_eq_some_iff.1 hruns
  obtain ⟨prepared, hprepared, hruns⟩ := Option.map_eq_some_iff.1 hruns
  obtain ⟨hnames, hplain⟩ := Prod.mk.inj hruns
  have hplain := of_decide_eq_true hplain
  have hargs : prepared.signature.args ≠ [] := by
    intro hnil
    rw [hnil] at hnames
    cases hnames
  have himpls := eq_ok_of_toOption himpls
  have hprepared := eq_ok_of_toOption hprepared
  have himpl := List.mem_of_head? himpl
  have hm := List.mem_of_head? hm
  exact ⟨hasPaths_default, impls, himpls, impl, himpl, m, hm, prepared, hprepared, hnames, hplain,
    (setup_aligned hasPaths_default himpls himpl hm hprepared).2 hargs hplain⟩

end LuaBindings.Adapter
