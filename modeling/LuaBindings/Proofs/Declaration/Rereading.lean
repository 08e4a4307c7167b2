import LuaBindings.Proofs.Declaration.Methods
import LuaBindings.Proofs.RustType.Rereading
import Mathlib.Data.List.Chain

/-!
# Impl bodies read what they are written with

Methods and other items are taken from the front of a body one after the other, each up
to its own end, whatever follows. So a body of such items gives the methods and the
other items in their order.
-/

set_option autoImplicit false

namespace LuaBindings

open Reader
open TokenTree (maybe)

/-! ### The front of another item -/

section Front

variable {semicolon : TokenTree} (hsemicolon : semicolon.isPunct ";" = true)
include hsemicolon

/-- The attributes at the front of an item end before its semicolon. -/
theorem AttributeSyntax.exists_split (trees rest : List TokenTree) :
    ∃ (attributes : List AttributeSyntax) (body : List TokenTree),
      trees = attributes.flatMap AttributeSyntax.trees ++ body ∧
      Attribute.leading (body ++ semicolon :: rest) = ([], body ++ semicolon :: rest) := by
  fun_induction Attribute.leading trees with
  | case1 hash brackets more t g hbrackets hhash _ _ _ ih =>
    obtain ⟨attributes, body, rfl, hbody⟩ := ih
    obtain ⟨rfl, ht⟩ := TokenTree.token?_eq_some hhash
    obtain ⟨hd, rfl⟩ := TokenTree.group?_eq_some hbrackets
    obtain ⟨d, opener, inner, closer⟩ := g
    subst hd
    exact ⟨⟨⟨t, ht⟩, opener, inner, closer⟩ :: attributes, body, rfl, hbody⟩
  | case2 hash brackets more hnone =>
    refine ⟨[], hash :: brackets :: more, rfl, ?_⟩
    rw [List.cons_append, List.cons_append, Attribute.leading]
    split
    · rename_i hhash hbrackets
      exact absurd hbrackets (hnone _ _ hhash)
    · rfl
  | case3 trees hshort =>
    refine ⟨[], trees, rfl, ?_⟩
    rcases trees with _ | ⟨tree, _ | ⟨next, more⟩⟩
    · exact Attribute.leading_eq_nil (TokenTree.isPunct_eq_false hsemicolon (by decide))
    · obtain ⟨t, rfl, _⟩ := TokenTree.isPunct_iff.1 hsemicolon
      change Attribute.leading (tree :: .token t :: rest) = _
      rw [Attribute.leading]
      split
      · rename_i hbrackets
        cases hbrackets
      · rfl
    · exact absurd rfl (hshort tree next more)

/-- The visibility at the front of an item ends before its semicolon. -/
theorem VisibilitySyntax.exists_split (trees rest : List TokenTree) :
    ∃ (v : VisibilitySyntax) (body : List TokenTree),
      trees = v.trees ++ body ∧ v.EndsBefore (body ++ semicolon :: rest) := by
  cases trees with
  | nil => exact ⟨.inherited, [], rfl, isIdent_of_isPunct hsemicolon _⟩
  | cons tree more =>
    by_cases hpub : tree.isIdent "pub" = true
    · obtain ⟨t, htoken⟩ := Option.isSome_iff_exists.1 hpub
      obtain ⟨rfl, ht⟩ := TokenTree.token?_eq_some htoken
      cases more with
      | nil =>
        obtain ⟨u, rfl, _⟩ := TokenTree.isPunct_iff.1 hsemicolon
        exact ⟨.pub ⟨t, ht⟩, [], rfl, rfl⟩
      | cons next more =>
        cases hparen : next.group? .paren with
        | none =>
          exact ⟨.pub ⟨t, ht⟩, next :: more, rfl, Option.isSome_eq_false_iff.2 (by simp [hparen])⟩
        | some g =>
          obtain ⟨hd, rfl⟩ := TokenTree.group?_eq_some hparen
          obtain ⟨d, opener, inner, closer⟩ := g
          subst hd
          exact ⟨.restricted ⟨t, ht⟩ opener inner closer, more, rfl, trivial⟩
    · exact ⟨.inherited, tree :: more, rfl, Bool.eq_false_iff.2 hpub⟩

/-- If `fn` is seen to be ahead, it stands behind qualifiers. A string may come first if a
qualifier came before. -/
theorem QualifierSyntax.exists_of_isAhead {trees rest : List TokenTree} {afterQualifier : Bool}
    (h : Method.isAhead afterQualifier (trees ++ semicolon :: rest) = true) :
    ∃ (abi : Option { t : Token // t.kind.isString = true }) (qualifiers : List QualifierSyntax)
      (fn : Token.Word "fn") (more : List TokenTree),
      trees = maybe abi ++ (qualifiers.flatMap QualifierSyntax.trees ++ .token fn.1 :: more) ∧
        (afterQualifier = false → abi = none) := by
  induction trees generalizing afterQualifier with
  | nil =>
    obtain ⟨t, rfl, hkind, _⟩ := TokenTree.isPunct_iff.1 hsemicolon
    simp [Method.isAhead, TokenTree.isIdent_token, Token.isIdent, TokenTree.isToken,
      TokenTree.token?, hkind, TokenKind.isString] at h
  | cons tree trees ih =>
    rw [List.cons_append, Method.isAhead] at h
    by_cases hfn : tree.isIdent "fn" = true
    · obtain ⟨t, htoken⟩ := Option.isSome_iff_exists.1 hfn
      obtain ⟨rfl, ht⟩ := TokenTree.token?_eq_some htoken
      exact ⟨none, [], ⟨t, ht⟩, trees, rfl, fun _ => rfl⟩
    rw [if_neg hfn] at h
    by_cases hword : tree.isToken (fun t => t.kind == .ident && Method.qualifiers.contains t.text)
        = true
    · rw [if_pos hword] at h
      obtain ⟨t, htoken⟩ := Option.isSome_iff_exists.1 hword
      obtain ⟨rfl, ht⟩ := TokenTree.token?_eq_some htoken
      obtain ⟨abi, qualifiers, fn, more, rfl, _⟩ := ih h
      have hqualifier : t.kind = .ident ∧ t.text ∈ Method.qualifiers := by simpa using ht
      exact ⟨none, ⟨⟨t, hqualifier⟩, abi⟩ :: qualifiers, fn, more, by simp [QualifierSyntax.trees, maybe],
        fun _ => rfl⟩
    rw [if_neg hword] at h
    by_cases hstring : afterQualifier = true ∧ tree.isToken (·.kind.isString) = true
    · rw [if_pos hstring] at h
      obtain ⟨t, htoken⟩ := Option.isSome_iff_exists.1 hstring.2
      obtain ⟨rfl, ht⟩ := TokenTree.token?_eq_some htoken
      obtain ⟨abi, qualifiers, fn, more, rfl, hnone⟩ := ih h
      rw [hnone rfl]
      exact ⟨some ⟨t, ht⟩, qualifiers, fn, more, rfl, fun hfalse => by simp [hstring.1] at hfalse⟩
    · rw [if_neg hstring] at h
      cases h

/-- Up to its semicolon the trees of an item are taken. -/
theorem otherTrees_append {body : List TokenTree} (rest : List TokenTree) {afterBang : Bool}
    (hinside : ∀ tree ∈ body, tree.isPunct ";" = false)
    (hfirst : afterBang = true → body.head?.any (·.isGroup .brace) = false)
    (hnoMacro : body.IsChain fun a b => ¬(a.isPunct "!" = true ∧ b.isGroup .brace = true)) :
    ImplItem.otherTrees afterBang (body ++ semicolon :: rest) = body ++ [semicolon] := by
  induction body generalizing afterBang with
  | nil => rw [List.nil_append, ImplItem.otherTrees, if_pos hsemicolon]; rfl
  | cons tree body ih =>
    have hnoEnd : ¬(tree.isGroup .brace = true ∧ afterBang = true ∧
        (!(body ++ semicolon :: rest).head?.any (·.isPunct ";")) = true) := fun h => by
      have hbrace := hfirst h.2.1
      rw [List.head?_cons, Option.any_some, h.1] at hbrace
      cases hbrace
    rw [List.cons_append, ImplItem.otherTrees, if_neg (by simp [hinside tree]), if_neg hnoEnd,
      ih (fun t ht => hinside t (List.mem_cons_of_mem _ ht)) ?_ hnoMacro.tail, List.cons_append]
    intro hbang
    cases body with
    | nil => rfl
    | cons next body =>
      have hpair := (List.isChain_cons_cons.1 hnoMacro).1
      exact Bool.eq_false_iff.2 fun hbrace => hpair ⟨hbang, hbrace⟩

end Front

/-! ### Items -/

def ItemSyntax.item : ItemSyntax → ImplItem
  | method m => .method m.method
  | other o => .other o.trees

theorem OtherSyntax.reader_eq (o : OtherSyntax) (rest : List TokenTree) :
    ∃ c, ImplItem.reader (o.trees ++ rest) (.ofTrees (o.trees ++ rest) none) =
      .ok (.other o.trees) c ∧ c.position = o.trees.length := by
  have hsemicolon := TokenTree.isPunct_mark o.semicolon
  obtain ⟨attributes, behind, hfront, hleading⟩ :=
    AttributeSyntax.exists_split hsemicolon o.front rest
  obtain ⟨v, body, rfl, hends⟩ := VisibilitySyntax.exists_split hsemicolon behind rest
  have htrees : o.trees ++ rest = attributes.flatMap AttributeSyntax.trees ++
      (v.trees ++ (body ++ .token o.semicolon.1 :: rest)) := by
    rw [OtherSyntax.trees, hfront]
    simp
  have hnotAhead : Method.isAhead false (body ++ .token o.semicolon.1 :: rest) = false := by
    rw [Bool.eq_false_iff]
    intro hahead
    obtain ⟨abi, qualifiers, fn, more, hbody, habi⟩ :=
      QualifierSyntax.exists_of_isAhead hsemicolon hahead
    rw [habi rfl] at hbody
    refine o.notFunction ⟨attributes, v, qualifiers, fn, more, ?_⟩
    rw [hfront, hbody]
    rfl
  have hsub : body <:+ o.front := by
    rw [hfront, ← List.append_assoc]
    exact List.suffix_append _ _
  have hothers : ImplItem.otherTrees false (body ++ .token o.semicolon.1 :: rest) =
      body ++ [.token o.semicolon.1] :=
    otherTrees_append hsemicolon rest (fun tree htree => o.inside tree (hsub.mem htree))
      (fun h => absurd h (by decide)) (o.noMacro.suffix hsub)
  let past := v.trees.reverse ++ ((attributes.flatMap AttributeSyntax.trees).reverse ++ [])
  let c : Cursor := ⟨past, body ++ .token o.semicolon.1 :: rest, none⟩
  have hlength : c.position + (body ++ [TokenTree.token o.semicolon.1]).length =
      o.trees.length := by
    rw [OtherSyntax.trees, hfront]
    simp only [c, past, Cursor.position, List.length_append, List.length_reverse, List.length_nil,
      List.length_singleton]
    omega
  refine ⟨c.skip (body ++ [TokenTree.token o.semicolon.1]).length, ?_, ?_⟩
  · rw [List.append_assoc] at hleading
    have hattributes := AttributeSyntax.yields attributes hleading [] none
    have hvisibility := v.yields hends ((attributes.flatMap AttributeSyntax.trees).reverse ++ []) none
    have htake : (o.trees ++ rest).take
        (c.position + (body ++ [TokenTree.token o.semicolon.1]).length) = o.trees := by
      rw [hlength, List.take_left]
    rw [htrees] at htake ⊢
    rw [ImplItem.reader, Cursor.ofTrees, bind_of_ok hattributes, bind_of_ok hvisibility]
    change (get >>= _ : Reader ImplItem) c = _
    rw [bind_of_ok (show (get : Reader Cursor) c = .ok c c from rfl),
      if_neg (by rw [hnotAhead]; exact Bool.false_ne_true), hothers]
    exact congrArg (EStateM.Result.ok · _) (congrArg ImplItem.other htake)
  · have hskip := Cursor.skip_append past (body ++ [TokenTree.token o.semicolon.1]) rest none
    rw [List.append_assoc, List.singleton_append] at hskip
    rw [hskip, ← hlength]
    simp only [c, Cursor.position, List.length_append, List.length_reverse]
    omega

theorem ItemSyntax.reader_eq (item : ItemSyntax) (rest : List TokenTree) :
    ∃ c, ImplItem.reader (item.trees ++ rest) (.ofTrees (item.trees ++ rest) none) =
      .ok item.item c ∧ c.position = item.trees.length := by
  cases item with
  | method m =>
    refine ⟨_, m.yields (m.trees ++ rest) rest [] none, ?_⟩
    simp [Cursor.position, ItemSyntax.trees]
  | other o => exact o.reader_eq rest

theorem ItemSyntax.trees_ne_nil (item : ItemSyntax) : item.trees ≠ [] := by
  cases item with
  | method m => simp [trees, MethodSyntax.trees, MethodSyntax.core]
  | other o => simp [trees, OtherSyntax.trees]

namespace ImplItems

theorem ofTrees_cons (item : ItemSyntax) (rest : List TokenTree) :
    ofTrees (item.trees ++ rest) = (ofTrees rest).add item.item := by
  obtain ⟨c, hread, hposition⟩ := item.reader_eq rest
  have hafter : ImplItem.after c.position (item.trees ++ rest) = rest := by
    have hpos := List.length_pos_iff.2 item.trees_ne_nil
    rw [ImplItem.after, hposition, Nat.max_eq_right hpos, List.drop_left]
  cases htrees : item.trees ++ rest with
  | nil => exact absurd (List.append_eq_nil_iff.1 htrees).1 item.trees_ne_nil
  | cons tree more =>
    rw [htrees] at hread hafter
    rw [ofTrees, hread]
    dsimp only
    rw [hafter]

theorem ofTrees_flatMap (items : List ItemSyntax) :
    ofTrees (items.flatMap ItemSyntax.trees) =
      ⟨items.filterMap ItemSyntax.method?, items.filterMap ItemSyntax.other?, []⟩ := by
  induction items with
  | nil =>
    rw [List.flatMap_nil, ofTrees]
    rfl
  | cons item items ih =>
    rw [List.flatMap_cons, ofTrees_cons, ih]
    cases item <;> rfl

/-- A body of methods and other items reads these methods and these other items, in their
order. -/
theorem ofBody_items (items : List ItemSyntax) (opener closer : Token) :
    ofBody ⟨.brace, opener, items.flatMap ItemSyntax.trees, closer⟩ =
      .ok (items.filterMap ItemSyntax.method?, items.filterMap ItemSyntax.other?) := by
  rw [ofBody, ofTrees_flatMap]
  rfl

/-- A method with a receiver and a parameter behind a string of its qualifier, and an
associated type. -/
theorem ofBody_items_pair :
    let token (kind : TokenKind) (text : String) : Token := ⟨kind, text, .first, .first⟩
    let u8 : RustType.TypeSyntax := .path none (.last (.plain ⟨token .ident "u8", rfl⟩))
    ∃ (m : MethodSyntax) (o : OtherSyntax),
      m.method.name = "f" ∧ m.method.receiver = some ⟨true, false, none⟩ ∧
      m.method.params.map (·.type) = [u8.type] ∧ o.trees.length = 5 ∧
      ofBody ⟨.brace, token (.opener .brace) "\x7b", m.trees ++ (o.trees ++ []),
        token (.closer .brace) "\x7d"⟩ = .ok ([m.method], [o.trees]) := by
  intro token u8
  have hu8 : u8.Readable := ⟨fun _ => by decide, trivial⟩
  let x : ParameterSyntax :=
    { attributes := []
      first := .token (token .ident "x")
      others := []
      colon := ⟨token .punct ":", rfl⟩
      type := ⟨⟨u8.trees, u8.type, u8.read_type hu8 none⟩, u8.whole⟩
      unmarked := by decide
      notSelf := Bool.false_ne_true }
  let m : MethodSyntax :=
    { attributes := []
      visibility := .pub ⟨token .ident "pub", rfl⟩
      qualifiers := [⟨⟨token .ident "extern", by decide⟩, some ⟨token .string "\"C\"", rfl⟩⟩]
      fn := ⟨token .ident "fn", rfl⟩
      name := ⟨token .ident "f", rfl⟩
      generics := none
      opener := token (.opener .paren) "("
      params := .method [] (.reference ⟨token .punct "&", rfl⟩ none none ⟨token .ident "self", rfl⟩)
        ⟨token .punct ",", rfl⟩ (.last x)
      closer := token (.closer .paren) ")"
      returns := none
      clause := none
      bodyOpener := token (.opener .brace) "\x7b"
      body := []
      bodyCloser := token (.closer .brace) "\x7d" }
  let front : List TokenTree := [.token (token .ident "type"), .token (token .ident "N"),
    .token (token .punct "="), .token (token .ident "u8")]
  let o : OtherSyntax :=
    { front := front
      semicolon := ⟨token .punct ";", rfl⟩
      notFunction := by
        rintro ⟨attributes, visibility, qualifiers, fn, rest, hfront⟩
        have hmem : TokenTree.token fn.1 ∈ front := by rw [hfront]; simp
        have hno : ∀ tree ∈ front, tree.isIdent "fn" = false := by decide
        have hfn := hno _ hmem
        rw [TokenTree.isIdent_token, fn.2] at hfn
        cases hfn
      inside := by decide
      noMacro := by decide }
  exact ⟨m, o, rfl, rfl, rfl, rfl, ofBody_items [.method m, .other o] _ _⟩

end ImplItems
end LuaBindings
