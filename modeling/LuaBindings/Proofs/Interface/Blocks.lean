import LuaBindings.Proofs.Adapter.Statements
import LuaBindings.Proofs.Declaration.Fitting
import LuaBindings.Proofs.Declaration.MarkScan
import LuaBindings.Proofs.Interface.EmittedLines

/-!
# Scanning the blocks of an expansion

What is written for an interface opens and closes only its own groups. The calls in it stand in
parentheses, so a scan finds in it just what is marked among the attributes and in the head of the
impl (`Fitting.completes_expansion`). It may come behind any token (`Fitting.joins_expansion`).
-/

set_option autoImplicit false

namespace LuaBindings

open NestingScan
open TokenTree (flatten)
open Terminal (IsLexeme)

/-! ### Lines -/

namespace NestingScan

open CodeWriter (blockLines)

variable {σ : Type} {next : σ → Token.Content → Option σ} {Ends : σ → List Char → Prop}
  {s inside middle behind : σ} {rest : List Char}

theorem Line.at_depth {text : String} (h : Line next s text behind) (depth : Nat) :
    Line next s (CodeWriter.indented depth text) behind := by
  unfold CodeWriter.indented
  split
  · rename_i hempty
    rwa [String.isEmpty_iff.1 hempty] at h
  · refine h.indented ?_
    rw [CodeWriter.indentation, String.toList_ofList]
    exact Layout.isSpace_of_mem_replicate _

theorem Lines.at_depth {texts : List String} (h : Lines next s texts behind) (depth : Nat) :
    Lines next s (texts.map (CodeWriter.indented depth)) behind := by
  induction h with
  | nil s => exact .nil s
  | cons hline _ ih => exact .cons (hline.at_depth depth) ih

theorem lines_block {header footer : String} {texts : List String}
    (hheader : Line next s header inside) (htexts : Lines next inside texts middle)
    (hfooter : Line next middle footer behind) :
    Lines next s (blockLines header footer texts) behind :=
  (Lines.cons hheader (htexts.at_depth 1)).append hfooter.lines

/-- Behind the last of some lines the text goes on without a new one. -/
theorem Lines.completes_intercalate {texts : List String} {last : String}
    (h : Lines next s texts middle) (hlast : Completes next Ends middle (last.toList ++ rest)) :
    Completes next Ends s ((String.intercalate "\n" (texts ++ [last])).toList ++ rest) := by
  have htext : (String.intercalate "\n" (texts ++ [last])).toList =
      texts.flatMap (fun text => text.toList ++ ['\n']) ++ last.toList := by
    rw [String.toList_intercalate]
    clear h
    induction texts with
    | nil => simp
    | cons text texts ih =>
      obtain ⟨second, others, hsplit⟩ :=
        List.exists_cons_of_ne_nil (l := (texts ++ [last]).map String.toList) (by simp)
      rw [List.cons_append, List.map_cons, hsplit, List.intercalate_cons_cons, ← hsplit, ih]
      simp
  rw [htext, List.append_assoc]
  exact h.completes hlast

end NestingScan

namespace MarkScan

variable {attrName : String} {f : Bool} {g outer groups behind : List Delimiter} {m : Mode}

theorem line_inert {text : String} (houter : isSearched outer = false)
    (h : Line nests groups text behind) :
    Line (next attrName) ⟨groups ++ outer, .idle, f⟩ text ⟨behind ++ outer, .idle, f⟩ :=
  fun _ _ hrest => completes_inert houter (h (.ends hrest))

theorem lines_inert {texts : List String} (houter : isSearched outer = false)
    (h : Lines nests groups texts behind) :
    Lines (next attrName) ⟨groups ++ outer, .idle, f⟩ texts ⟨behind ++ outer, .idle, f⟩ := by
  induction h with
  | nil groups => exact .nil _
  | cons hline _ ih => exact .cons (line_inert houter hline) ih

theorem line_text (front : List Delimiter) (text : String) (behind : List Delimiter)
    (h : opensBehind front text = some behind) (hquiet : isQuiet text = true) :
    Line (next attrName) ⟨front ++ outer, .idle, f⟩ text ⟨behind ++ outer, .idle, f⟩ :=
  fun _ _ hrest => completes_text front text behind h hquiet (.inl rfl)
    (hrest.blank (c := '\n') rfl)

theorem next_name (hm : m.IsResting) (name : List Char) :
    next attrName ⟨g, m, f⟩ (.ident, name) = some ⟨g, .idle, f⟩ := by
  rw [next_resting hm (by rintro ⟨⟩), next_idle (by rintro - ⟨⟩)]
  rfl

end MarkScan

namespace Interface

open MarkScan (isSearched)

/-- The parts of an interface that are put into its text are read there as they are. -/
structure Fitting (i : Interface) : Prop where
  target : i.target = .default
  generics : Layout.Seals i.impl.generics
  angle : ∀ c ∈ i.generics.toList.head?, c = '<'
  closed : ∀ tree ∈ i.impl.generics.getLast?, tree.isPunct ">" = true
  selfType : Layout.Seals i.impl.selfType.trees
  whereClause : Layout.Seals i.impl.whereClause
  word : ∀ tree ∈ i.impl.whereClause.head?, tree.isIdent "where" = true
  attributes : ∀ a ∈ i.impl.attributes, a.Formed ∧ Layout.Seals a.trees ∧
    ∃ front ∈ ["#[", "# ["], front.toList <+: (Layout.inline a.trees).toList
  methods : ∀ m ∈ i.methods, m.Fitting

/-! ### Calls -/

section
variable {attrName : String} {f : Bool} {g : List Delimiter} {m : PreparedMethod}

theorem isLexeme_registerWith (s : Signature) : IsLexeme .ident s.registerWith := by
  unfold Signature.registerWith
  generalize s.method.isAsync = isAsync
  generalize s.isMeta = isMeta
  cases s.dispatch with
  | receiver isMut => cases isAsync <;> cases isMeta <;> cases isMut <;> decide
  | free isMut => cases isAsync <;> cases isMeta <;> cases isMut <;> decide

/-- A name and a closure that is opened behind it, in parentheses. -/
theorem completes_quoted (hm : m.Fitting) (convention : CallConvention) (name : String)
    {Ends : List Delimiter → List Char → Prop} {groups : List Delimiter} {rest : List Char}
    (hrest : Completes nests Ends (.brace :: groups) rest) :
    Completes nests Ends groups ((Literal.quote name).toList ++
      (", ".toList ++ ((m.closure convention).header.toList ++ rest))) :=
  completes_quote name
    (Completes.text [] ", " [] (by decide) (hm.completes_header convention hrest))

theorem lines_registration (hm : m.Fitting) : Lines (MarkScan.next attrName) ⟨g, .idle, f⟩
    (registrationLines m) ⟨g, .idle, f⟩ := by
  have hparen : isSearched (.paren :: g) = false := rfl
  have hbody : Lines (MarkScan.next attrName) ⟨.brace :: .paren :: g, .idle, f⟩
      (m.closure .receiver).statements ⟨.brace :: .paren :: g, .idle, f⟩ :=
    MarkScan.lines_inert rfl (hm.lines_statements .receiver [])
  refine lines_block (fun Ends rest hrest => ?_) hbody
    (MarkScan.line_text [.brace, .paren] "\x7d);" [] (by decide) (by decide))
  unfold registrationFront
  simp only [String.toList_append, List.append_assoc]
  have h : Completes nests (fun groups text => Completes (MarkScan.next attrName) Ends
      ⟨groups ++ .paren :: g, .idle, f⟩ text) [.brace] ('\n' :: rest) :=
    .ends (hrest.blank rfl)
  have h := MarkScan.completes_inert hparen (completes_quoted hm .receiver m.signature.luaName h)
  have h := MarkScan.completes_text [] "(" [.paren] (by decide) (by decide)
    (.inl rfl) h
  have h := h.ident (breaks_text "(" (by decide) _) (isLexeme_registerWith m.signature)
    (MarkScan.next_name (.inl rfl) _)
  exact MarkScan.completes_text [] "__lua_methods." [] (by decide) (by decide)
    (.inl rfl) h

theorem isLexeme_creator (m : PreparedMethod) : IsLexeme .ident (creator m) := by
  unfold creator
  split
  · decide
  · split <;> decide

theorem lines_publication (hm : m.Fitting) : Lines (MarkScan.next attrName) ⟨g, .idle, f⟩
    (publicationLines m) ⟨g, .idle, f⟩ := by
  have hparen : isSearched (.paren :: g) = false := rfl
  have hbody : Lines (MarkScan.next attrName) ⟨.brace :: .paren :: .paren :: g, .idle, f⟩
      (m.closure .table).statements ⟨.brace :: .paren :: .paren :: g, .idle, f⟩ :=
    MarkScan.lines_inert rfl (hm.lines_statements .table [])
  refine lines_block (fun Ends rest hrest => ?_) hbody
    (MarkScan.line_text [.brace, .paren, .paren] "\x7d)?)?;" [] (by decide)
      (by decide))
  unfold publicationFront
  simp only [String.toList_append, List.append_assoc]
  have h : Completes nests (fun groups text => Completes (MarkScan.next attrName) Ends
      ⟨groups ++ .paren :: g, .idle, f⟩ text) [.brace, .paren] ('\n' :: rest) :=
    .ends (hrest.blank rfl)
  have h := hm.completes_header .table h
  have h := Completes.text [] "(" [.paren] (by decide) h
  have h := h.ident (breaks_text "(" (by decide) _) (isLexeme_creator m) rfl
  have h := Completes.text [] ", __lua_context." [] (by decide) h
  have h := MarkScan.completes_inert hparen (completes_quote m.signature.luaName h)
  exact MarkScan.completes_text [] "__t_table.set(" [.paren] (by decide)
    (by decide) (.inl rfl) h

end

/-! ### Heads -/

section
variable {attrName : String} {f : Bool} {g : List Delimiter} {m : MarkScan.Mode}
  {Ends : MarkScan → List Char → Prop} {rest : List Char}

/-- Trees on a line, at a place that is searched. -/
theorem completes_trees {trees : List TokenTree} (h : Layout.Seals trees)
    (hg : isSearched g = true) (hm : m.IsResting)
    (hhead : m = .idle ∨ ∀ tree ∈ trees.head?, tree.isGroup .bracket = false)
    (hrest : ∀ m : MarkScan.Mode, m.IsResting → Joins (MarkScan.next attrName) Ends
      ⟨g, m, f || !(Found.inTrees attrName trees).isEmpty⟩ rest) :
    Completes (MarkScan.next attrName) Ends ⟨g, m, f⟩ ((Layout.inline trees).toList ++ rest) := by
  obtain ⟨last, hrun⟩ := MarkScan.foldlM_inTrees attrName h.formed hg f
  have hlast := MarkScan.resting_of_foldlM hrun (.inl rfl) hg
  cases trees with
  | nil =>
    have hjoins := (hrest m hm).completes
    have hnone : (Found.inTrees attrName []).isEmpty = true := by
      rw [Found.inTrees_nil]
      rfl
    rwa [hnone, Bool.not_true, Bool.or_false] at hjoins
  | cons tree trees =>
    have hfirst : ∀ t ∈ (flatten (tree :: trees)).head?, m = .idle ∨ t.kind ≠ .opener .bracket :=
      fun t ht => hhead.imp_right fun hnot => MarkScan.kind_of_first h.formed (hnot tree rfl) t ht
    have hne := TokenTree.flatten_ne_nil (List.cons_ne_nil tree trees)
    exact h.sealed.completes ((MarkScan.foldlM_resting hne hm hfirst g f).trans hrun)
      (hrest last hlast)

/-- Generic parameters end with a bracket. -/
theorem Fitting.foldlM_generics {i : Interface} (h : i.Fitting) (hg : isSearched g = true) :
    ((flatten i.impl.generics).map Token.content).foldlM (MarkScan.next attrName) ⟨g, .idle, f⟩ =
      some ⟨g, .idle, f || !(Found.inTrees attrName i.impl.generics).isEmpty⟩ := by
  obtain ⟨m, hrun⟩ := MarkScan.foldlM_inTrees attrName h.generics.formed hg f
  rcases List.eq_nil_or_concat i.impl.generics with hnil | ⟨front, last, hsplit⟩
  · rw [hnil, Found.inTrees_nil]
    exact congrArg some (congrArg (MarkScan.mk g .idle) (Bool.or_false f).symm)
  · rw [List.concat_eq_append] at hsplit
    have hclosed := h.closed last (by rw [hsplit, List.getLast?_concat]; rfl)
    obtain ⟨t, ht⟩ := Option.isSome_iff_exists.1 hclosed
    obtain ⟨rfl, hangle⟩ := TokenTree.token?_eq_some ht
    have hidle : m = .idle := by
      rw [hsplit, TokenTree.flatten_append, TokenTree.flatten_token_cons, TokenTree.flatten_nil,
        List.map_append] at hrun
      exact MarkScan.idle_of_angle hangle hrun
    rwa [hidle] at hrun

def headerTail (i : Interface) (middle : String) : String :=
  i.generics ++ (middle ++ (i.selfType ++ (i.whereClause ++ " \x7b")))

theorem Fitting.userdataHeader_eq {i : Interface} (h : i.Fitting) :
    i.userdataHeader = "impl" ++ i.headerTail " mlua::UserData for " := by
  unfold userdataHeader
  rw [h.target, show RuntimeTarget.default.crate = "mlua" from rfl, ← String.toList_inj]
  simp [toString, headerTail]

/-- The tail of the header does not go on with the keyword. -/
theorem Fitting.breaks_headerTail {i : Interface} (h : i.Fitting) {middle : String}
    (hhead : middle.toList.head? = some ' ') (rest : List Char) :
    ∀ c ∈ ((i.headerTail middle).toList ++ rest).head?, c = '<' ∨ c = ' ' := by
  unfold headerTail
  simp only [String.toList_append, List.append_assoc]
  cases hgenerics : i.generics.toList with
  | nil =>
    cases hmiddle : middle.toList with
    | nil =>
      rw [hmiddle] at hhead
      cases hhead
    | cons c more =>
      rw [hmiddle] at hhead
      cases hhead
      simp
  | cons c more =>
    have hangle := h.angle
    rw [hgenerics] at hangle
    exact fun d hd => .inl (hangle d hd)

theorem Fitting.completes_headerTail {i : Interface} (h : i.Fitting) {middle : String}
    (hg : isSearched g = true)
    (hmiddle : ∀ {f rest}, Completes (MarkScan.next attrName) Ends ⟨g, .idle, f⟩ rest →
      Joins (MarkScan.next attrName) Ends ⟨g, .idle, f⟩ (middle.toList ++ rest))
    (hrest : Completes (MarkScan.next attrName) Ends
      ⟨.brace :: g, .idle, f || i.impl.marksHead attrName⟩ rest) :
    Completes (MarkScan.next attrName) Ends ⟨g, .idle, f⟩
      ((i.headerTail middle).toList ++ rest) := by
  have hfound : (f || i.impl.marksHead attrName) =
      (((f || !(Found.inTrees attrName i.impl.generics).isEmpty) ||
        !(Found.inTrees attrName i.impl.selfType.trees).isEmpty) ||
          !(Found.inTrees attrName i.impl.whereClause).isEmpty) := by
    simp [ImplBlock.marksHead, Bool.or_assoc]
  rw [hfound] at hrest
  have hopen (m : MarkScan.Mode) (hm : m.IsResting) :=
    (MarkScan.completes_text [] " \x7b" [.brace] (by decide) (by decide) hm
      hrest).joins_boundary (by decide)
  have hwhere (m : MarkScan.Mode) (hm : m.IsResting) : Joins (MarkScan.next attrName) Ends
      ⟨g, m, (f || !(Found.inTrees attrName i.impl.generics).isEmpty) ||
        !(Found.inTrees attrName i.impl.selfType.trees).isEmpty⟩
      (i.whereClause.toList ++ (" \x7b".toList ++ rest)) := by
    unfold Interface.whereClause
    split
    · rename_i hempty
      have hnone : (Found.inTrees attrName i.impl.whereClause).isEmpty = true := by
        rw [List.isEmpty_iff.1 hempty, Found.inTrees_nil]
        rfl
      have hjoins := hopen m hm
      rwa [hnone, Bool.not_true, Bool.or_false] at hjoins
    · have hword : ∀ tree ∈ i.impl.whereClause.head?, tree.isGroup .bracket = false := by
        intro tree htree
        obtain ⟨t, ht⟩ := Option.isSome_iff_exists.1 (h.word tree htree)
        obtain ⟨rfl, -⟩ := TokenTree.token?_eq_some ht
        rfl
      rw [String.toList_append, List.append_assoc]
      exact ((completes_trees h.whereClause hg hm (.inr hword) hopen).blank
        (c := ' ') rfl).joins_of_bounded (Terminal.bounded_cons (by decide) _)
  unfold headerTail
  simp only [String.toList_append, List.append_assoc]
  exact h.generics.sealed.completes (h.foldlM_generics hg)
    (hmiddle (completes_trees h.selfType hg (.inl rfl) (.inl rfl) hwhere))

theorem line_attribute {a : Attribute} (ha : a.Formed) (hseals : Layout.Seals a.trees)
    (hg : isSearched g = true) (m : MarkScan.Mode) :
    Line (MarkScan.next attrName) ⟨g, m, f⟩ (Layout.inline a.trees)
      ⟨g, .idle, f || a.name == attrName⟩ :=
  fun _ _ hrest => hseals.sealed.completes
    (MarkScan.foldlM_attribute ha hseals.formed hg attrName m f)
    ((hrest.blank (c := '\n') rfl).joins_of_bounded (Terminal.bounded_cons (by decide) _))

theorem lines_attributes {attributes : List Attribute}
    (h : ∀ a ∈ attributes, a.Formed ∧ Layout.Seals a.trees) (hg : isSearched g = true) :
    Lines (MarkScan.next attrName) ⟨g, .idle, f⟩
      (attributes.map fun a => Layout.inline a.trees)
      ⟨g, .idle, f || attributes.any (·.name == attrName)⟩ := by
  induction attributes generalizing f with
  | nil =>
    rw [List.any_nil, Bool.or_false]
    exact .nil _
  | cons a attributes ih =>
    obtain ⟨ha, hothers⟩ := List.forall_mem_cons.1 h
    rw [List.any_cons, ← Bool.or_assoc]
    exact .cons (line_attribute ha.1 ha.2 hg .idle) (ih hothers)

variable {i : Interface} (h : i.Fitting)
include h

theorem Fitting.line_header {middle : String} (hg : isSearched g = true)
    (hspace : middle.toList.head? = some ' ')
    (hmiddle : ∀ {Ends : MarkScan → List Char → Prop} {f rest},
      Completes (MarkScan.next attrName) Ends ⟨g, .idle, f⟩ rest →
        Joins (MarkScan.next attrName) Ends ⟨g, .idle, f⟩ (middle.toList ++ rest))
    (hm : m.IsResting) :
    Line (MarkScan.next attrName) ⟨g, m, f⟩ ("impl" ++ i.headerTail middle)
      ⟨.brace :: g, .idle, f || i.impl.marksHead attrName⟩ := by
  intro Ends rest hrest
  have himpl : IsLexeme .ident "impl" := by decide
  rw [String.toList_append, List.append_assoc]
  refine (h.completes_headerTail hg hmiddle (hrest.blank (c := '\n') rfl)).ident ?_ himpl
    (MarkScan.next_name hm _)
  intro c hc
  rcases h.breaks_headerTail hspace _ c hc with rfl | rfl <;> decide

/-- The lines up to the one that opens the impl. -/
theorem Fitting.lines_front {middle : String} (hg : isSearched g = true)
    (hspace : middle.toList.head? = some ' ')
    (hmiddle : ∀ {Ends : MarkScan → List Char → Prop} {f rest},
      Completes (MarkScan.next attrName) Ends ⟨g, .idle, f⟩ rest →
        Joins (MarkScan.next attrName) Ends ⟨g, .idle, f⟩ (middle.toList ++ rest))
    (hm : m.IsResting) :
    Lines (MarkScan.next attrName) ⟨g, m, f⟩
      (i.attributeLines ++ ["impl" ++ i.headerTail middle])
      ⟨.brace :: g, .idle, f || i.impl.leavesMark attrName⟩ := by
  unfold attributeLines ImplBlock.leavesMark
  rw [← Bool.or_assoc]
  have hall := fun a ha => (h.attributes a ha).imp_right And.left
  generalize i.impl.attributes = attributes at hall
  cases attributes with
  | nil =>
    rw [List.any_nil, Bool.or_false]
    exact (h.line_header hg hspace hmiddle hm).lines
  | cons a attributes =>
    obtain ⟨ha, hothers⟩ := List.forall_mem_cons.1 hall
    rw [List.any_cons, ← Bool.or_assoc]
    refine .cons (line_attribute ha.1 ha.2 hg m) ((lines_attributes hothers hg).append ?_)
    exact (h.line_header hg hspace hmiddle (.inl rfl)).lines

omit h in
/-- A block and its attributes, the last line of which the text may go on behind. -/
theorem completes_block {s inside behind : MarkScan} {attributes texts : List String}
    {header footer : String}
    (hfront : Lines (MarkScan.next attrName) s (attributes ++ [header]) inside)
    (hinner : Lines (MarkScan.next attrName) inside texts behind)
    (hfooter : Completes (MarkScan.next attrName) Ends behind (footer.toList ++ rest)) :
    Completes (MarkScan.next attrName) Ends s ((String.intercalate "\n"
      (attributes ++ CodeWriter.blockLines header footer texts)).toList ++ rest) := by
  have hlines : attributes ++ CodeWriter.blockLines header footer texts =
      (attributes ++ [header] ++ texts.map (CodeWriter.indented 1)) ++ [footer] := by
    simp [CodeWriter.blockLines]
  rw [hlines]
  exact (hfront.append (hinner.at_depth 1)).completes_intercalate hfooter

/-! ### Impls -/

theorem Fitting.completes_userdataImpl (hg : isSearched g = true) (hm : m.IsResting)
    (hrest : Completes (MarkScan.next attrName) Ends
      ⟨g, .idle, f || i.impl.leavesMark attrName⟩ rest) :
    Completes (MarkScan.next attrName) Ends ⟨g, m, f⟩ (i.userdataImpl.toList ++ rest) := by
  have hfunction : i.addMethodsHeader =
      "fn add_methods<'lua, M: mlua::UserDataMethods<'lua, Self>>(__lua_methods: &mut M) \x7b" := by
    unfold addMethodsHeader
    rw [h.target]
    rfl
  have hmethods : Lines (MarkScan.next attrName)
      ⟨.brace :: .brace :: g, .idle, f || i.impl.leavesMark attrName⟩
      (i.methods.flatMap registrationLines)
      ⟨.brace :: .brace :: g, .idle, f || i.impl.leavesMark attrName⟩ :=
    lines_flatMap fun m hm => lines_registration (h.methods m hm)
  rw [userdataImpl_eq_lines, userdataBlock, h.userdataHeader_eq, hfunction]
  refine completes_block (h.lines_front hg (by decide) (fun hrest => ?_) hm)
    (lines_block (MarkScan.line_text [] _ [.brace] (by decide) (by decide))
      hmethods (MarkScan.line_text [.brace] "\x7d" [] (by decide) (by decide)))
    (MarkScan.completes_text [.brace] "\x7d" [] (by decide) (by decide) (.inl rfl)
      hrest)
  exact (MarkScan.completes_text [] " mlua::UserData for " [] (by decide)
    (by decide) (.inl rfl) hrest).joins_boundary (by decide)

omit h in
theorem line_global (name : String) : Line (MarkScan.next attrName) ⟨g, .idle, f⟩
    (globalLine name) ⟨g, .idle, f⟩ := by
  intro Ends rest hrest
  have hparen : isSearched (.paren :: g) = false := rfl
  unfold globalLine
  simp only [String.toList_append, List.append_assoc]
  have h := MarkScan.completes_text [.paren] ", __t_table)" [] (by decide)
    (by decide) (.inl rfl) (hrest.blank (c := '\n') rfl)
  have h : Completes nests (fun groups text => Completes (MarkScan.next attrName) Ends
      ⟨groups ++ .paren :: g, .idle, f⟩ text) [] (", __t_table)".toList ++ '\n' :: rest) := .ends h
  have h := MarkScan.completes_inert hparen (completes_quote name h)
  exact MarkScan.completes_text [] "__lua_context.globals().set(" [.paren] (by decide)
    (by decide) (.inl rfl) h

theorem Fitting.completes_publishImpl (name : String) (hg : isSearched g = true)
    (hrest : Completes (MarkScan.next attrName) Ends
      ⟨g, .idle, f || i.impl.leavesMark attrName⟩ rest) :
    Completes (MarkScan.next attrName) Ends ⟨g, .idle, f⟩
      ((i.publishImpl name).toList ++ rest) := by
  have hheader : i.publicationHeader = "impl" ++ i.headerTail " " := by
    rw [← String.toList_inj]
    simp [toString, publicationHeader, headerTail]
  have hfunction : i.registerGlobalsHeader =
      "fn register_globals<'lua>(__lua_context: &'lua mlua::Lua) -> " ++
        "Result<(), mlua::Error> \x7b" := by
    unfold registerGlobalsHeader
    rw [h.target]
    rfl
  have hstatics : Lines (MarkScan.next attrName)
      ⟨.brace :: .brace :: g, .idle, f || i.impl.leavesMark attrName⟩
      (i.statics.flatMap publicationLines)
      ⟨.brace :: .brace :: g, .idle, f || i.impl.leavesMark attrName⟩ :=
    lines_flatMap fun m hm => lines_publication (h.methods m (List.mem_of_mem_filter hm))
  rw [publishImpl_eq_lines, publicationBlock, hheader, hfunction]
  refine completes_block (h.lines_front hg (by decide) (fun hrest => ?_) (.inl rfl))
    (lines_block (MarkScan.line_text [] _ [.brace] (by decide) (by decide))
      ((Lines.cons (MarkScan.line_text [] tableLine [] (by decide) (by decide))
        hstatics).append
        (.cons (MarkScan.line_text [] metatableLine [] (by decide) (by decide))
          (line_global name).lines))
      (MarkScan.line_text [.brace] "\x7d" [] (by decide) (by decide)))
    (MarkScan.completes_text [.brace] "\x7d" [] (by decide) (by decide) (.inl rfl)
      hrest)
  exact (hrest.blank (c := ' ') rfl).joins_of_bounded (Terminal.bounded_cons (by decide) _)

/-- In an expansion a scan finds what is marked in front of the impl and in its head. -/
theorem Fitting.completes_expansion {text : String} (htext : i.expansion = .ok text)
    (hg : isSearched g = true) (hm : m.IsResting)
    (hrest : Completes (MarkScan.next attrName) Ends
      ⟨g, .idle, f || i.impl.leavesMark attrName⟩ rest) :
    Completes (MarkScan.next attrName) Ends ⟨g, m, f⟩ (text.toList ++ rest) := by
  obtain ⟨publication, hpublication, htext⟩ := exists_of_bind_eq_ok htext
  cases publication with
  | none =>
    cases htext
    exact h.completes_userdataImpl hg hm hrest
  | some publication =>
    cases htext
    unfold publication? at hpublication
    split at hpublication
    · cases hpublication
    · split at hpublication
      · rename_i name hname
        cases hpublication
        simp only [String.toList_append, List.append_assoc]
        refine h.completes_userdataImpl hg hm (.blank rfl (.blank rfl
          (h.completes_publishImpl name hg ?_)))
        rwa [Bool.or_assoc, Bool.or_self]
      · cases hpublication

omit h in
theorem exists_intercalate_eq (line : String) (lines : List String) :
    ∃ more, (String.intercalate "\n" (line :: lines)).toList = line.toList ++ more := by
  rw [String.toList_intercalate]
  exact ⟨_, Layout.intercalate_cons line.toList (lines.map String.toList)⟩

/-- An expansion begins with the hash sign of an attribute or with the keyword of an impl. -/
theorem Fitting.exists_expansion_eq {text : String} (htext : i.expansion = .ok text) :
    (∃ front ∈ ["#[", "# ["], front.toList <+: text.toList) ∨
      ∃ tail, text.toList = "impl".toList ++ tail ∧
        ∀ rest, ∀ c ∈ (tail ++ rest).head?, c = '<' ∨ c = ' ' := by
  obtain ⟨behind, hbehind⟩ : ∃ behind, text.toList = i.userdataImpl.toList ++ behind := by
    obtain ⟨publication, -, htext⟩ := exists_of_bind_eq_ok htext
    cases publication with
    | none =>
      cases htext
      exact ⟨[], (List.append_nil _).symm⟩
    | some publication =>
      cases htext
      simp only [String.toList_append, List.append_assoc]
      exact ⟨_, rfl⟩
  rw [hbehind, userdataImpl_eq_lines, userdataBlock, h.userdataHeader_eq, attributeLines]
  cases hattributes : i.impl.attributes with
  | nil =>
    obtain ⟨more, hmore⟩ := exists_intercalate_eq ("impl" ++ i.headerTail " mlua::UserData for ")
      ((CodeWriter.blockLines i.addMethodsHeader "\x7d"
        (i.methods.flatMap registrationLines)).map (CodeWriter.indented 1) ++ ["\x7d"])
    refine .inr ⟨(i.headerTail " mlua::UserData for ").toList ++ (more ++ behind), ?_,
      fun rest => ?_⟩
    · rw [String.toList_append, List.append_assoc] at hmore
      rw [← List.append_assoc _ more, ← List.append_assoc "impl".toList, ← hmore]
      rfl
    · rw [List.append_assoc]
      exact h.breaks_headerTail (by decide) _
  | cons a attributes =>
    have ha : a ∈ i.impl.attributes := hattributes ▸ List.mem_cons_self
    obtain ⟨front, hfront, hbegins⟩ := (h.attributes a ha).2.2
    refine .inl ⟨front, hfront, hbegins.trans ?_⟩
    rw [List.map_cons, List.cons_append]
    obtain ⟨more, hmore⟩ := exists_intercalate_eq (Layout.inline a.trees) _
    rw [hmore, List.append_assoc]
    exact List.prefix_append _ _

/-- An expansion may come behind any token. -/
theorem Fitting.joins_expansion {P : MarkScan → Prop} {text : String}
    (htext : i.expansion = .ok text) (hg : isSearched g = true) (hm : m.IsResting)
    (hrest : Completes (MarkScan.next attrName) (AtEnd P)
      ⟨g, .idle, f || i.impl.leavesMark attrName⟩ rest) :
    Joins (MarkScan.next attrName) (AtEnd P) ⟨g, m, f⟩ (text.toList ++ rest) := by
  have hcompletes := h.completes_expansion htext hg hm hrest
  rcases h.exists_expansion_eq htext with ⟨front, hfront, more, hmore⟩ | ⟨tail, htail, hhead⟩
  · rw [← hmore, List.append_assoc] at hcompletes ⊢
    simp only [List.mem_cons, List.not_mem_nil, or_false] at hfront
    rcases hfront with rfl | rfl
    · exact hcompletes.joins_hash (Terminal.opensFence_cons (by decide) (by decide) _)
        (Terminal.plainName_eq_none (by decide))
    · exact hcompletes.joins_hash (Terminal.opensFence_cons (by decide) (by decide) _)
        (Terminal.plainName_eq_none (by decide))
  · rw [htail, List.append_assoc] at hcompletes ⊢
    have hbreaks : Breaks (tail ++ rest) := by
      intro c hc
      rcases hhead rest c hc with rfl | rfl <;> decide
    have hpoint : ∀ c ∈ (tail ++ rest).head?, c ≠ '.' := by
      intro c hc
      rcases hhead rest c hc with rfl | rfl <;> decide
    have himpl : Terminal.next? "impl".toList = some (.ident, "impl".toList, []) := by decide
    have hstep := step_of_next? (Terminal.next?_of_follows himpl (hbreaks.follows _)) nofun
    obtain ⟨behind, hbehind, htail⟩ := hcompletes.of_step hstep rfl
    cases (MarkScan.next_name hm _).symm.trans hbehind
    refine htail.joins_name hbreaks hpoint (by decide) (MarkScan.next_name hm _)
      (fun before kind hkind lexeme hbefore => ?_) fun before hbefore => ?_
    · have hrun : [(kind, lexeme)].foldlM (MarkScan.next attrName) before = some ⟨g, m, f⟩ := by
        rw [List.foldlM_cons, hbefore]
        rfl
      have hplain : kind.isDelimiter = false := by
        simp only [List.mem_cons, List.not_mem_nil, or_false] at hkind
        rcases hkind with rfl | rfl | rfl <;> rfl
      exact MarkScan.next_word hg (by simpa using hplain) hrun hkind _
    · exact MarkScan.next_word hg (by simp; decide) hbefore (by simp) _

end
end Interface
end LuaBindings
