import LuaBindings.Proofs.Declaration.Joined
import LuaBindings.Proofs.Declaration.Rereading

/-!
# A type in the places where one is written

Each place has its own way to find the end of a type. A parameter ends at a comma that
stands in no angle brackets. A return type ends at braces, at `where` or at a semicolon
and the type of a block at braces or at `where`, and begins behind `for`, and these count
in angle brackets too. So a type is read alike in all three places if none of these
stands among its trees (`read_in_places`).
-/

set_option autoImplicit false

namespace LuaBindings

open Reader
open TokenTree (splitCommas commaChunks Uncut Whole)

/-! ### What the trees of a type are -/

namespace RustType

variable {trees : List TokenTree} {anchor : Option Location} {t : RustType}

/-- How trees begin that are accepted, and what becomes of them. -/
inductive Accepted (first : TokenTree) (rest : List TokenTree) : RustType → Prop
  | reference (lifetime : Option String) (isMut : Bool) (elem : RustType)
    (hamp : first.isPunct "&" = true) :
    Accepted first rest (.reference (first :: rest) lifetime isMut elem)
  | tuple (g : Group) (elems : List RustType) (hparen : onlyParen? (first :: rest) = some g) :
    Accepted first rest (.tuple (first :: rest) elems)
  | path (leadingColon : Bool) (qualifiers : List PathSegment) (last : PathSegment)
    (hbegins : beginsPath first = true)
    (hcomplete : (pathParts (leadingToken (·.isPunct "::") (first :: rest)).2).2 =
      .complete []) :
    Accepted first rest (.path (first :: rest) leadingColon qualifiers last)
  | other : Accepted first rest (.other (first :: rest))

theorem accepted_of_ofTrees {first : TokenTree} {rest : List TokenTree}
    (h : ofTrees (first :: rest) anchor = .ok t) : Accepted first rest t := by
  rw [ofTrees_cons] at h
  split at h
  · rename_i hamp
    obtain ⟨elem, -, rfl⟩ := map_eq_ok_iff.1 h
    exact .reference _ _ _ hamp
  · split at h
    · rename_i g hparen
      obtain ⟨elems, -, rfl⟩ := map_eq_ok_iff.1 h
      exact .tuple g elems hparen
    · split at h
      · rename_i hbegins
        obtain ⟨segments, -, h⟩ := exists_of_bind_eq_ok h
        unfold ofSegments at h
        split at h
        · cases h
        · rename_i hcomplete
          split at h <;> cases h
          · exact .path _ _ _ hbegins hcomplete
          · exact .other
        · cases h
          exact .other
      · cases h
        exact .other

/-- A type keeps all of the trees that it is read from. -/
theorem trees_of_ofTrees (h : ofTrees trees anchor = .ok t) : t.trees = trees := by
  cases trees with
  | nil =>
    rw [ofTrees] at h
    cases h
  | cons first rest => cases accepted_of_ofTrees h <;> rfl

theorem leadingLifetime_suffix (trees : List TokenTree) : (leadingLifetime trees).2 <:+ trees := by
  unfold leadingLifetime
  split
  · exact List.drop_suffix _ _
  · exact List.suffix_refl _

theorem leadingToken_suffix (p : TokenTree → Bool) (trees : List TokenTree) :
    (leadingToken p trees).2 <:+ trees := by
  unfold leadingToken
  split
  · exact List.drop_suffix _ _
  · exact List.suffix_refl _

/-- What a reference is to is read from its last trees. -/
theorem trees_suffix_of_reference {whole : List TokenTree} {lifetime : Option String}
    {isMut : Bool} {elem : RustType}
    (h : ofTrees trees anchor = .ok (.reference whole lifetime isMut elem)) :
    elem.trees <:+ trees := by
  cases trees with
  | nil =>
    rw [ofTrees] at h
    cases h
  | cons first rest =>
    rw [ofTrees_cons] at h
    split at h
    · obtain ⟨elem', helem, heq⟩ := map_eq_ok_iff.1 h
      cases heq
      rw [trees_of_ofTrees helem]
      exact (leadingToken_suffix _ _).trans
        ((leadingLifetime_suffix rest).trans (List.suffix_cons first rest))
    · split at h
      · obtain ⟨elems, -, heq⟩ := map_eq_ok_iff.1 h
        cases heq
      · split at h
        · obtain ⟨segments, -, h⟩ := exists_of_bind_eq_ok h
          unfold ofSegments at h
          split at h
          · cases h
          · split at h <;> cases h
          · cases h
        · cases h

/-- A reference, a path or a tuple begins with no angle bracket. -/
theorem head?_of_ofTrees (h : ofTrees trees anchor = .ok t) (hformed : ∀ other, t ≠ .other other) :
    trees.head?.any (·.isPunct "<") = false := by
  cases trees with
  | nil => rfl
  | cons first rest =>
    rw [List.head?_cons, Option.any_some]
    cases accepted_of_ofTrees h with
    | reference _ _ _ hamp => exact TokenTree.isPunct_eq_false hamp (by decide)
    | tuple g _ hparen =>
      cases eq_of_onlyParen hparen
      rfl
    | path _ _ _ hbegins _ =>
      rw [beginsPath, Bool.or_eq_true] at hbegins
      rcases hbegins with hcolons | hname
      · exact TokenTree.isPunct_eq_false hcolons (by decide)
      · refine isPunct_of_isToken hname (fun t ht => ?_) _
        simp only [Bool.and_eq_true, beq_iff_eq] at ht
        rw [ht.1]
        decide
    | other => exact absurd rfl (hformed _)

/-! ### Commas in a type -/

theorem commaChunks_throughAngle {depth : Nat} {angle rest : List TokenTree}
    (h : TokenTree.throughAngle (depth + 1) trees = some (angle, rest)) :
    commaChunks (depth + 1) trees =
      (angle ++ (commaChunks 0 rest).1, (commaChunks 0 rest).2) := by
  induction trees generalizing depth angle with
  | nil => cases h
  | cons tree trees ih =>
    rw [commaChunks, if_neg (by simp)]
    rw [TokenTree.throughAngle] at h
    split at h
    · rename_i hzero
      cases h
      rw [hzero]
      rfl
    · rename_i hdepth
      obtain ⟨inner, hinner, heq⟩ := Option.map_eq_some_iff.1 h
      cases heq
      obtain ⟨n, hn⟩ := Nat.exists_eq_succ_of_ne_zero hdepth
      rw [hn] at hinner ⊢
      rw [ih hinner]
      rfl

theorem commaChunks_plain {tree : TokenTree} {rest : List TokenTree} (hopen : tree.isPunct "<" = false)
    (hclose : tree.isPunct ">" = false) (hcomma : tree.isPunct "," = false) :
    commaChunks 0 (tree :: rest) = (tree :: (commaChunks 0 rest).1, (commaChunks 0 rest).2) := by
  rw [commaChunks, if_neg (by simp [hcomma]), TokenTree.angleDepth_plain _ hopen hclose]

/-- What is taken up to the end of an angle list is taken whatever comes behind it. -/
theorem throughAngle_append_right {depth : Nat} {angle rest : List TokenTree}
    (h : TokenTree.throughAngle depth trees = some (angle, rest)) (more : List TokenTree) :
    TokenTree.throughAngle depth (angle ++ more) = some (angle, more) := by
  induction trees generalizing depth angle with
  | nil => cases h
  | cons tree trees ih =>
    rw [TokenTree.throughAngle] at h
    split at h
    · rename_i hzero
      cases h
      rw [List.singleton_append, TokenTree.throughAngle, if_pos hzero]
    · rename_i hdepth
      obtain ⟨inner, hinner, heq⟩ := Option.map_eq_some_iff.1 h
      cases heq
      rw [List.cons_append, TokenTree.throughAngle, if_neg hdepth, ih hinner]
      rfl

theorem uncut_leadingAngle {angle rest : List TokenTree}
    (h : leadingAngle trees = some (angle, rest)) : Uncut angle := by
  cases trees with
  | nil =>
    cases h
    exact TokenTree.uncut_nil
  | cons tree trees =>
    rw [leadingAngle] at h
    split at h
    · rename_i hopen
      obtain ⟨inner, hinner, heq⟩ := Option.map_eq_some_iff.1 h
      cases heq
      intro more
      rw [List.cons_append, commaChunks, if_neg (by simp [TokenTree.isPunct_eq_false hopen]),
        TokenTree.angleDepth_opening _ hopen,
        commaChunks_throughAngle (throughAngle_append_right hinner more)]
      rfl
    · cases h
      exact TokenTree.uncut_nil

theorem whole_colons {tree : TokenTree} (h : tree.isPunct "::" = true) : Whole [tree] :=
  .plain (TokenTree.isPunct_eq_false h (by decide)) (TokenTree.isPunct_eq_false h (by decide))
    (TokenTree.isPunct_eq_false h (by decide)) .nil

theorem whole_ident {tree : TokenTree} {name : Token}
    (h : tree.token? (·.kind == .ident) = some name) : Whole [tree] := by
  obtain ⟨rfl, hkind⟩ := TokenTree.token?_eq_some h
  exact (TokenTree.Inert.of_kind (by rw [beq_iff_eq.1 hkind]; decide)).cons_whole .nil

/-- A double colon is stepped over, or nothing. -/
theorem skipTurbofish_cases (trees : List TokenTree) :
    skipTurbofish trees = trees ∨
      ∃ colons, colons.isPunct "::" = true ∧ trees = colons :: skipTurbofish trees := by
  unfold skipTurbofish
  split
  · split
    · rename_i hcolons
      exact .inr ⟨_, hcolons.1, rfl⟩
    · exact .inl rfl
  · exact .inl rfl

theorem uncut_skipTurbofish (h : Uncut (skipTurbofish trees)) : Uncut trees := by
  rcases skipTurbofish_cases trees with heq | ⟨colons, hcolons, heq⟩
  · rwa [heq] at h
  · rw [heq]
    exact .cons (whole_colons hcolons) h

/-- No comma cuts a path outside of its angle lists, and these are closed. -/
theorem uncut_pathParts (h : (pathParts trees).2 = .complete []) : Uncut trees := by
  fun_induction pathParts trees with
  | case1 => cases h
  | case2 => cases h
  | case3 => cases h
  | case4 tree rest name hname angle hangle =>
    have happ := leadingAngle_append hangle
    rw [List.append_nil] at happ
    exact .cons (whole_ident hname) (uncut_skipTurbofish (happ ▸ uncut_leadingAngle hangle))
  | case5 tree rest name hname angle next rest' hangle hcolons _ parts ending heq ih =>
    rw [heq] at ih
    have happ := leadingAngle_append hangle
    refine .cons (whole_ident hname) (uncut_skipTurbofish ?_)
    rw [← happ]
    exact (uncut_leadingAngle hangle).append (.cons (whole_colons hcolons) (ih h))
  | case6 => cases h

/-- No comma cuts a path or a tuple. -/
theorem uncut_of_ofTrees (h : ofTrees trees anchor = .ok t) (hformed : ∀ other, t ≠ .other other)
    (hreference : ∀ trees lifetime isMut elem, t ≠ .reference trees lifetime isMut elem) :
    Uncut trees := by
  cases trees with
  | nil => exact TokenTree.uncut_nil
  | cons first rest =>
    cases accepted_of_ofTrees h with
    | reference => exact absurd rfl (hreference _ _ _ _)
    | tuple g _ hparen =>
      cases eq_of_onlyParen hparen
      exact .cons ((TokenTree.Inert.of_group _ _ _ _).cons_whole .nil) TokenTree.uncut_nil
    | path _ _ _ _ hcomplete =>
      rw [leadingToken] at hcomplete
      split at hcomplete
      · rename_i hcolons
        exact .cons (whole_colons hcolons) (uncut_pathParts hcomplete)
      · exact uncut_pathParts hcomplete
    | other => exact absurd rfl (hformed _)

end RustType

/-! ### Lists with one chunk -/

/-- The first chunk is the whole list, or a comma cuts it short. -/
theorem TokenTree.commaChunks_fst (depth : Nat) (trees : List TokenTree) :
    (commaChunks depth trees).2 = [] ∧ (commaChunks depth trees).1 = trees ∨
      (commaChunks depth trees).2 ≠ [] ∧
        (commaChunks depth trees).1.length < trees.length := by
  fun_induction commaChunks depth trees with
  | case1 => exact .inl ⟨rfl, rfl⟩
  | case2 => exact .inr ⟨List.cons_ne_nil _ _, Nat.succ_pos _⟩
  | case3 depth tree rest _ chunk chunks heq ih =>
    rw [heq] at ih
    rcases ih with ⟨hchunks, hchunk⟩ | ⟨hchunks, hlength⟩
    · exact .inl ⟨hchunks, congrArg (tree :: ·) hchunk⟩
    · exact .inr ⟨hchunks, Nat.succ_lt_succ hlength⟩

theorem TokenTree.dropEmptyLast_cons {chunk : List TokenTree} (hne : chunk ≠ [])
    (chunks : List (List TokenTree)) : ∃ more, dropEmptyLast (chunk :: chunks) = chunk :: more := by
  cases chunks with
  | nil =>
    cases chunk with
    | nil => exact absurd rfl hne
    | cons tree trees => exact ⟨[], rfl⟩
  | cons next chunks => exact ⟨_, dropEmptyLast_cons_cons chunk next chunks⟩

/-- Trees that no comma cuts are one chunk. -/
theorem TokenTree.splitCommas_eq_singleton {trees : List TokenTree} (hne : trees ≠ []) :
    splitCommas trees = [trees] ↔ (commaChunks 0 trees).2 = [] := by
  rw [splitCommas]
  rcases commaChunks_fst 0 trees with ⟨hchunks, hchunk⟩ | ⟨hchunks, hlength⟩
  · refine iff_of_true ?_ hchunks
    rw [show commaChunks 0 trees = (trees, []) from Prod.ext hchunk hchunks]
    cases trees with
    | nil => exact absurd rfl hne
    | cons tree rest => rfl
  · refine iff_of_false (fun h => ?_) hchunks
    obtain ⟨next, more, heq⟩ := List.exists_cons_of_ne_nil hchunks
    rw [show commaChunks 0 trees = ((commaChunks 0 trees).1, next :: more) from
      Prod.ext rfl heq] at h
    dsimp only at h
    rw [dropEmptyLast_cons_cons] at h
    rw [(List.cons.inj h).1] at hlength
    exact Nat.lt_irrefl _ hlength

/-- Paths and tuples have no commas outside of their brackets. -/
theorem RustType.splitCommas_of_ofTrees {trees : List TokenTree} {anchor : Option Location}
    {t : RustType} (h : ofTrees trees anchor = .ok t) (hformed : ∀ other, t ≠ .other other)
    (hreference : ∀ trees lifetime isMut elem, t ≠ .reference trees lifetime isMut elem) :
    splitCommas trees = [trees] := by
  refine (uncut_of_ofTrees h hformed hreference).splitCommas_self ?_
  rintro rfl
  rw [ofTrees] at h
  cases h

/-! ### Readers that fail -/

namespace Reader

variable {α β : Type} {front back : List TokenTree} {e : Failure}

def Fails (reader : Reader α) (trees : List TokenTree) (e : Failure) : Prop :=
  ∀ past anchor, ∃ c, reader ⟨past, trees, anchor⟩ = .error e c

theorem Fails.bind {x : Reader α} (f : α → Reader β) (hx : x.Fails front e) :
    (x >>= f).Fails front e := by
  intro past anchor
  obtain ⟨c, hc⟩ := hx past anchor
  exact ⟨c, bind_of_error hc⟩

theorem Yields.fails {x : Reader α} {f : α → Reader β} {a : α} (hx : x.Yields front back a)
    (hf : (f a).Fails back e) : (x >>= f).Fails (front ++ back) e := by
  intro past anchor
  rw [bind_of_ok (hx past anchor)]
  exact hf _ anchor

theorem fails_ofExcept {result : Except Failure α} (h : result = .error e)
    (trees : List TokenTree) : (ofExcept result).Fails trees e := by
  intro past anchor
  rw [h]
  exact ⟨_, rfl⟩

theorem Fails.runOn {reader : Reader α} (h : reader.Fails front e) (anchor : Location) :
    reader.runOn front anchor = .error e := by
  obtain ⟨c, hc⟩ := h [] (some anchor)
  rw [Reader.runOn, Cursor.ofTrees, hc]

end Reader

/-- What is read of the first chunk comes first in what is read of a parameter list. -/
theorem Method.first_of_parametersOf {g : Group} {chunk : List TokenTree}
    {chunks : List (List TokenTree)} {result : Option Receiver × List Parameter}
    (hsplit : splitCommas g.inner = chunk :: chunks) (h : parametersOf g = .ok result) :
    ∃ first others, firstParameter.runOn chunk g.opener.start = .ok first ∧
      result = first.elim (fun receiver => (some receiver, others)) fun p => (none, p :: others) := by
  rw [parametersOf, hsplit] at h
  dsimp only at h
  cases hfirst : firstParameter.runOn chunk g.opener.start with
  | error e =>
    rw [hfirst] at h
    cases h
  | ok first =>
    rw [hfirst] at h
    cases hothers : chunks.mapM (anyParameter.runOn · g.opener.start) with
    | error e =>
      rw [hothers] at h
      cases h
    | ok others =>
      rw [hothers] at h
      refine ⟨first, others, rfl, ?_⟩
      cases first <;> cases h <;> rfl

/-- Where no item fails the first is read and comes before the others. -/
theorem ImplItems.exists_first {trees : List TokenTree} (hne : trees ≠ [])
    (h : (ofTrees trees).failures = []) :
    ∃ item c items, ImplItem.reader trees (.ofTrees trees none) = .ok item c ∧
      ofTrees trees = add item items := by
  cases trees with
  | nil => exact absurd rfl hne
  | cons tree rest =>
    cases hread : ImplItem.reader (tree :: rest) (.ofTrees (tree :: rest) none) with
    | error e c =>
      rw [ofTrees, hread] at h
      cases h
    | ok item c => exact ⟨item, c, _, rfl, by rw [ofTrees, hread]⟩

/-! ### The places -/

/-- The tokens around a type: it may stand behind the name of the only parameter of a list,
behind the arrow of a method, or in the head of a marked block. -/
structure TypeFrame where
  name : Token.OfKind .ident
  notSelf : name.1.text ≠ "self"
  colon : Token.Mark ":"
  fn : Token.Word "fn"
  arrow : Token.Mark "->"
  marker : AttributeSyntax
  impl : Token.Word "impl"
  opener : Token
  closer : Token

namespace TypeFrame

variable (f : TypeFrame) (trees : List TokenTree)

def params : Group :=
  ⟨.paren, f.opener, .token f.name.1 :: .token f.colon.1 :: trees, f.closer⟩

def braces : Group := ⟨.brace, f.opener, [], f.closer⟩

def methods : Group :=
  ⟨.brace, f.opener, .token f.fn.1 :: .token f.name.1 :: .group .paren f.opener [] f.closer ::
    .token f.arrow.1 :: (trees ++ [f.braces.tree]), f.closer⟩

def block : List TokenTree :=
  f.marker.trees ++ .token f.impl.1 :: (trees ++ [f.braces.tree])

def ReadsParameter (t : RustType) : Prop :=
  Method.parametersOf (f.params trees) =
    .ok (none, [⟨[.token f.name.1], t, [], f.name.1.start⟩])

def ReadsReturn (t : RustType) : Prop :=
  ∃ m, ImplItems.ofBody (f.methods trees) = .ok ([m], []) ∧ m.returnType = some t

def ReadsSelf (t : RustType) : Prop :=
  ∃ impl, Found.inTrees f.marker.value.name (f.block trees) = ⟨[impl], []⟩ ∧
    impl.selfType = t

/-! ### Parameters -/

theorem yields_pattern : (takeUntil (·.isPunct ":")).Yields [.token f.name.1]
    (.token f.colon.1 :: trees) [.token f.name.1] := by
  refine yields_takeUntil (fun tree htree => ?_) (fun tree htree => ?_)
  · rw [List.mem_singleton.1 htree]
    exact TokenTree.isPunct_eq_false_of_kind (by rw [f.name.2]; decide) _
  · cases htree
    exact TokenTree.isPunct_mark f.colon

theorem yields_parameter {t : RustType}
    (h : RustType.ofTrees trees (some f.colon.1.start) = .ok t) :
    (Reader.parameter []).Yields (.token f.name.1 :: .token f.colon.1 :: trees) []
      ⟨[.token f.name.1], t, [], f.name.1.start⟩ := by
  have hpattern : (takeUntil (·.isPunct ":")).Yields [.token f.name.1]
      ([.token f.colon.1] ++ trees ++ []) [.token f.name.1] := by
    simpa using f.yields_pattern trees
  refine hpattern.bind ?_
  refine Yields.bind (yields_expectPunct f.colon _) ?_
  refine .after (a := t) ?_ (yields_pure _ _)
  exact .after (yields_rest _) (yields_ofExcept h _)

theorem fails_parameter {e : Failure}
    (h : RustType.ofTrees trees (some f.colon.1.start) = .error e) :
    (Reader.parameter []).Fails (.token f.name.1 :: .token f.colon.1 :: trees) e := by
  refine (f.yields_pattern trees).fails ((yields_expectPunct f.colon _).fails (.bind _ ?_))
  have htype : (Reader.typeOfRest f.colon.1.start).Fails (trees ++ []) e :=
    (yields_rest trees).fails (fails_ofExcept h [])
  rwa [List.append_nil] at htype

theorem yields_attributes : Reader.attributes.Yields []
    (.token f.name.1 :: .token f.colon.1 :: trees) [] :=
  AttributeSyntax.yields [] (Attribute.leading_eq_nil
    (TokenTree.isPunct_eq_false_of_kind (by rw [f.name.2]; decide) _))

theorem yields_receiver : (lookahead receiver).Yields []
    (.token f.name.1 :: .token f.colon.1 :: trees) none := by
  have hself : ¬BeginsWithSelf [.token f.name.1] := by
    change ¬(TokenTree.token f.name.1).isIdent "self" = true
    simp [TokenTree.isIdent_token, Token.isIdent, f.notSelf]
  obtain ⟨taken, rest, heq, hnone⟩ :=
    exists_yields_receiver (TokenTree.isPunct_mark f.colon) hself
  have hlook := hnone.lookahead
  rwa [← heq] at hlook

/-- A parameter has the type that is read of all the trees behind the colon. -/
theorem runOn_firstParameter (anchor : Location) :
    firstParameter.runOn (.token f.name.1 :: .token f.colon.1 :: trees) anchor =
      (RustType.ofTrees trees (some f.colon.1.start)).map fun t =>
        .inr ⟨[.token f.name.1], t, [], f.name.1.start⟩ := by
  cases hread : RustType.ofTrees trees (some f.colon.1.start) with
  | ok t =>
    have hyields : firstParameter.Yields (.token f.name.1 :: .token f.colon.1 :: trees) []
        (.inr ⟨[.token f.name.1], t, [], f.name.1.start⟩) := by
      have hattributes := f.yields_attributes (trees ++ [])
      have hreceiver := f.yields_receiver (trees ++ [])
      rw [← List.cons_append, ← List.cons_append] at hattributes hreceiver
      exact .before hattributes (.before hreceiver
        (.after (f.yields_parameter trees hread) (yields_pure _ _)))
    have hrun := hyields.runOn anchor
    rwa [List.append_nil] at hrun
  | error e =>
    have hfails : firstParameter.Fails (.token f.name.1 :: .token f.colon.1 :: trees) e :=
      (f.yields_attributes trees).fails
        ((f.yields_receiver trees).fails ((f.fails_parameter trees hread).bind _))
    exact hfails.runOn anchor

theorem splitCommas_params :
    splitCommas (f.params trees).inner =
      TokenTree.dropEmptyLast ((.token f.name.1 :: .token f.colon.1 :: (commaChunks 0 trees).1) ::
        (commaChunks 0 trees).2) := by
  have hcolon := TokenTree.isPunct_mark f.colon
  have hname := TokenTree.Inert.of_kind (t := f.name.1) (by rw [f.name.2]; decide)
  rw [splitCommas, params, RustType.commaChunks_plain (hname _ (by simp)) (hname _ (by simp))
    (hname _ (by simp)), RustType.commaChunks_plain (TokenTree.isPunct_eq_false hcolon (by decide))
    (TokenTree.isPunct_eq_false hcolon (by decide)) (TokenTree.isPunct_eq_false hcolon (by decide))]

variable {trees} {t : RustType}

theorem readsParameter_iff (h : RustType.ofTrees trees none = .ok t) :
    f.ReadsParameter trees t ↔ splitCommas trees = [trees] := by
  have hne : trees ≠ [] := by
    rintro rfl
    rw [RustType.ofTrees] at h
    cases h
  rw [TokenTree.splitCommas_eq_singleton hne]
  have hsplit := f.splitCommas_params trees
  have hchunk := TokenTree.commaChunks_fst 0 trees
  have hread := f.runOn_firstParameter (commaChunks 0 trees).1 f.opener.start
  -- The type is read of the first chunk, which is all of the trees only if nothing cuts them.
  generalize commaChunks 0 trees = chunks at *
  obtain ⟨chunk, chunks⟩ := chunks
  dsimp only at *
  constructor
  · intro hparams
    obtain ⟨more, hmore⟩ := TokenTree.dropEmptyLast_cons
      (List.cons_ne_nil (.token f.name.1) (.token f.colon.1 :: chunk)) chunks
    obtain ⟨first, others, hfirst, heq⟩ :=
      Method.first_of_parametersOf (hsplit.trans hmore) hparams
    rw [show (f.params trees).opener = f.opener from rfl, hread] at hfirst
    cases htype : RustType.ofTrees chunk (some f.colon.1.start) with
    | error e =>
      rw [htype] at hfirst
      cases hfirst
    | ok u =>
      rw [htype] at hfirst
      cases hfirst
      cases heq
      have hchunk' : chunk = trees := by
        rw [← RustType.trees_of_ofTrees htype, ← RustType.trees_of_ofTrees h]
      rcases hchunk with ⟨hnil, _⟩ | ⟨_, hlength⟩
      · exact hnil
      · exact absurd (congrArg List.length hchunk') (Nat.ne_of_lt hlength)
  · rintro rfl
    obtain ⟨-, rfl⟩ := hchunk.resolve_right fun hcut => hcut.1 rfl
    have htype := ReadableType.reads_at ⟨chunk, t, h⟩ f.colon.1.start
    rw [htype] at hread
    exact ParametersSyntax.parametersOf_eq hsplit hread rfl

/-! ### Return types -/

def front : List TokenTree :=
  [.token f.fn.1, .token f.name.1, .group .paren f.opener [] f.closer, .token f.arrow.1]

theorem isIdent_fn : (TokenTree.token f.fn.1).isIdent "fn" = true := by
  rw [TokenTree.isIdent_token]
  exact f.fn.2

/-- Behind the arrow a return type is read of the trees before the first that ends it. -/
theorem returnType_of_reader {m : Method} {c : Cursor} {rest : List TokenTree}
    (h : Method.reader [] (.ofTrees (f.front ++ rest) none) = .ok m c) :
    ∃ u, m.returnType = some u ∧
      RustType.ofTrees (rest.takeWhile fun tree => !Method.endsReturnType tree)
        (some f.name.1.start) = .ok u := by
  have hqualifiers : (takeUntil (·.isIdent "fn")).Yields [] (f.front ++ rest) [] :=
    yields_takeUntil (by simp) (by simp [front, f.isIdent_fn])
  have h := (bind_of_ok (hqualifiers [] none)).symm.trans h
  have h := (bind_of_ok (yields_expectWord f.fn _ [] none)).symm.trans h
  have h := (bind_of_ok (yields_expectName f.name _ _ none)).symm.trans h
  have h := (bind_of_ok (yields_optionalAngleList none (by simp [TokenTree.isPunct,
    TokenTree.isToken, TokenTree.token?]) _ none)).symm.trans h
  have h := (bind_of_ok (yields_expectGroup ⟨.paren, f.opener, [], f.closer⟩ _ _ none)).symm.trans h
  have hparams := ParametersSyntax.parametersOf_group (.free .nil) f.opener f.closer
  have h := (bind_of_ok (yields_ofExcept hparams _ _ none)).symm.trans h
  obtain ⟨returnType, c₁, hreturn, h⟩ := bind_eq_ok h
  obtain ⟨body, c₂, _, h⟩ := bind_eq_ok h
  cases h
  have hreturn := (bind_of_ok (yields_eat f.arrow.2 rest _ none)).symm.trans hreturn
  obtain ⟨taken, c₃, htaken, hreturn⟩ := bind_eq_ok hreturn
  cases htaken
  obtain ⟨u, c₄, hu, hreturn⟩ := bind_eq_ok hreturn
  cases hreturn
  exact ⟨u, rfl, (ofExcept_eq_ok hu).1⟩

/-- A body that begins with the method gives it first, if its items are read. -/
theorem reader_of_ofBody {rest : List TokenTree} {opener closer : Token} {m : Method}
    {methods : List Method} {others : List (List TokenTree)}
    (h : ImplItems.ofBody ⟨.brace, opener, f.front ++ rest, closer⟩ = .ok (m :: methods, others)) :
    ∃ c, Method.reader [] (.ofTrees (f.front ++ rest) none) = .ok m c := by
  have hunmarked : (f.front ++ rest).head?.any (·.isPunct "#") = false :=
    TokenTree.isPunct_eq_false_of_kind (by rw [f.fn.kind_eq]; decide) _
  have hattributes := AttributeSyntax.yields [] (Attribute.leading_eq_nil hunmarked) [] none
  have hinherited : VisibilitySyntax.inherited.EndsBefore (f.front ++ rest) := by
    simp [VisibilitySyntax.EndsBefore, front, TokenTree.isIdent_token, Token.isIdent,
      f.fn.text_eq]
  have hvisibility := VisibilitySyntax.yields .inherited hinherited [] none
  have hahead : Method.isAhead false (f.front ++ rest) = true :=
    QualifierSyntax.isAhead_trees [] f.fn _ false
  have hreader : ImplItem.reader (f.front ++ rest) (.ofTrees (f.front ++ rest) none) =
      (Method.reader [] >>= fun m => pure (.method m) : Reader ImplItem)
        (.ofTrees (f.front ++ rest) none) := by
    refine (bind_of_ok hattributes).trans ((bind_of_ok hvisibility).trans ?_)
    let c : Cursor := .ofTrees (f.front ++ rest) none
    change (get >>= _ : Reader ImplItem) c = _
    rw [bind_of_ok (show (get : Reader Cursor) c = .ok c c from rfl),
      if_pos (show Method.isAhead false c.rest = true from hahead)]
    rfl
  rw [ImplItems.ofBody] at h
  obtain ⟨hnone, heq⟩ := Failure.refuse_eq_ok h
  obtain ⟨item, c, items, hitem, hadd⟩ :=
    ImplItems.exists_first (show f.front ++ rest ≠ [] by simp [front]) hnone
  obtain ⟨m', c', hread, hpure⟩ := bind_eq_ok (hreader.symm.trans hitem)
  cases hpure
  have hmethods : (ImplItems.ofTrees (f.front ++ rest)).methods = m :: methods :=
    congrArg Prod.fst heq
  rw [hadd] at hmethods
  cases hmethods
  exact ⟨c, hread⟩

theorem readsReturn_iff (h : RustType.ofTrees trees none = .ok t) :
    f.ReadsReturn trees t ↔ ∀ tree ∈ trees, Method.endsReturnType tree = false := by
  constructor
  · rintro ⟨m, hbody, htype⟩
    obtain ⟨c, hread⟩ := f.reader_of_ofBody hbody
    obtain ⟨u, hreturn, hu⟩ := f.returnType_of_reader hread
    rw [htype] at hreturn
    cases hreturn
    have htrees := (RustType.trees_of_ofTrees hu).symm.trans (RustType.trees_of_ofTrees h)
    intro tree htree
    rw [← htrees] at htree
    simpa using List.mem_takeWhile_imp htree
  · intro hinside
    let type : ReadableType := ⟨trees, t, h⟩
    let returns : ReturnSyntax := ⟨f.arrow, type, fun tree htree => by
      simpa [Method.endsReturnType, and_assoc] using hinside tree htree⟩
    let m : MethodSyntax :=
      { attributes := []
        visibility := .inherited
        qualifiers := []
        fn := f.fn
        name := f.name
        generics := none
        opener := f.opener
        params := .free .nil
        closer := f.closer
        returns := some returns
        clause := none
        bodyOpener := f.opener
        body := []
        bodyCloser := f.closer }
    have hbody := ImplItems.ofBody_items [.method m] f.opener f.closer
    rw [List.flatMap_singleton] at hbody
    exact ⟨m.method, hbody, rfl⟩

/-! ### Self types -/

/-- The type of a block is read of the head up to what ends it, or of the part of that
behind the first `for`. -/
theorem selfType_of_reader {start : Location} {marker : Attribute} {attributes : List Attribute}
    {impl : ImplBlock} {c : Cursor} {rest : List TokenTree} {anchor : Option Location}
    (hangle : rest.head?.any (·.isPunct "<") = false)
    (h : ImplBlock.reader start marker attributes (.ofTrees (.token f.impl.1 :: rest) anchor) =
      .ok impl c) :
    RustType.ofTrees (ImplBlock.selfTrees (rest.takeWhile fun tree => !ImplBlock.endsHead tree))
      (some start) = .ok impl.selfType := by
  have hno : (eatWord "unsafe").Yields [] (.token f.impl.1 :: rest) false :=
    yields_eatWord_false (Token.Word.token?_ne f.impl (by decide))
  have h := (bind_of_ok (hno [] anchor)).symm.trans h
  have h := (bind_of_ok (yields_eatWord f.impl rest [] anchor)).symm.trans h
  have h := (bind_of_ok (yields_optionalAngleList none hangle _ anchor)).symm.trans h
  obtain ⟨header, c₁, hheader, h⟩ := bind_eq_ok h
  cases hheader
  obtain ⟨u, c₂, hu, h⟩ := bind_eq_ok h
  obtain ⟨clause, c₃, _, h⟩ := bind_eq_ok h
  obtain ⟨body, c₄, _, h⟩ := bind_eq_ok h
  obtain ⟨items, c₅, _, h⟩ := bind_eq_ok h
  cases h
  exact (ofExcept_eq_ok hu).1

/-- The type is read of the whole head, or of what comes behind a `for` in it. -/
theorem selfTrees_cases (header : List TokenTree) :
    ((∀ tree ∈ header, tree.isIdent "for" = false) ∧ ImplBlock.selfTrees header = header) ∨
      ∃ word ∈ header, word.isIdent "for" = true ∧
        word :: ImplBlock.selfTrees header <:+ header := by
  have hsuffix := List.dropWhile_suffix (l := header) fun tree => !tree.isIdent "for"
  rw [ImplBlock.selfTrees]
  cases hdrop : header.dropWhile fun tree => !tree.isIdent "for" with
  | nil => exact .inl ⟨by simpa using List.dropWhile_eq_nil_iff.1 hdrop, rfl⟩
  | cons word rest =>
    rw [hdrop] at hsuffix
    have hword := List.head?_dropWhile_not (fun tree => !tree.isIdent "for") header
    rw [hdrop] at hword
    exact .inr ⟨word, hsuffix.mem List.mem_cons_self, by simpa using hword, hsuffix⟩

/-- Nothing is left out of a head without `for`. -/
theorem selfTrees_eq_self (header : List TokenTree) :
    ImplBlock.selfTrees header = header ↔ ∀ tree ∈ header, tree.isIdent "for" = false := by
  rcases selfTrees_cases header with ⟨hno, heq⟩ | ⟨word, hmem, hword, hsuffix⟩
  · exact iff_of_true heq hno
  · refine iff_of_false (fun heq => ?_) fun hno => ?_
    · have hlength := hsuffix.length_le
      rw [heq, List.length_cons] at hlength
      exact Nat.not_succ_le_self _ hlength
    · rw [hno word hmem] at hword
      cases hword

theorem selfTrees_suffix (header : List TokenTree) : ImplBlock.selfTrees header <:+ header := by
  rcases selfTrees_cases header with ⟨_, heq⟩ | ⟨word, _, _, hsuffix⟩
  · rw [heq]
  · exact (List.suffix_cons _ _).trans hsuffix

/-- If the type is read of all the trees then nothing among them ends the head or begins the
type. -/
theorem inside_of_selfTrees
    (h : ImplBlock.selfTrees
      ((trees ++ [f.braces.tree]).takeWhile fun tree => !ImplBlock.endsHead tree) = trees) :
    ∀ tree ∈ trees, ImplBlock.endsHead tree = false ∧ tree.isIdent "for" = false := by
  have hfront := List.takeWhile_prefix (l := trees) fun tree => !ImplBlock.endsHead tree
  have hheader : (trees ++ [f.braces.tree]).takeWhile (fun tree => !ImplBlock.endsHead tree) =
      trees.takeWhile fun tree => !ImplBlock.endsHead tree := by
    rw [List.takeWhile_append]
    split
    · rename_i hlength
      rw [hfront.eq_of_length hlength]
      exact List.append_nil trees
    · rfl
  rw [hheader] at h
  have hle := (selfTrees_suffix (trees.takeWhile fun tree => !ImplBlock.endsHead tree)).length_le
  rw [h] at hle
  have hall := hfront.eq_of_length (Nat.le_antisymm hfront.length_le hle)
  rw [hall] at h
  intro tree htree
  refine ⟨?_, (selfTrees_eq_self trees).1 h tree htree⟩
  simpa using List.takeWhile_eq_self_iff.1 hall tree htree

theorem head?_append (h : RustType.ofTrees trees none = .ok t)
    (hformed : ∀ other, t ≠ .other other) :
    (trees ++ [f.braces.tree]).head?.any (·.isPunct "<") = false := by
  have hhead := RustType.head?_of_ofTrees h hformed
  cases trees with
  | nil => rfl
  | cons tree rest => exact hhead

theorem yields_block (start : Location) (marker : Attribute)
    (h : RustType.ofTrees trees none = .ok t) (hformed : ∀ other, t ≠ .other other)
    (hinside : ∀ tree ∈ trees, ImplBlock.endsHead tree = false ∧ tree.isIdent "for" = false) :
    ∃ impl, impl.selfType = t ∧ (ImplBlock.reader start marker []).Yields
      (.token f.impl.1 :: (trees ++ [f.braces.tree])) [] impl := by
  have hno : (eatWord "unsafe").Yields [] (.token f.impl.1 :: (trees ++ [f.braces.tree]) ++ [])
      false :=
    yields_eatWord_false (Token.Word.token?_ne f.impl (by decide))
  have hangle := f.head?_append h hformed
  have hbrace : f.braces.tree.isGroup .brace = true := rfl
  have hheader : (takeUntil ImplBlock.endsHead).Yields trees ([f.braces.tree] ++ []) trees :=
    yields_takeUntil (fun tree htree => (hinside tree htree).1) (by simp [ImplBlock.endsHead, hbrace])
  have hself : RustType.ofTrees (ImplBlock.selfTrees trees) (some start) = .ok t := by
    rw [(selfTrees_eq_self trees).2 fun tree htree => (hinside tree htree).2]
    exact ReadableType.reads_at ⟨trees, t, h⟩ start
  have hclause : (takeUntil (·.isGroup .brace)).Yields [] ([f.braces.tree] ++ []) [] :=
    yields_takeUntil (by simp) (by simp [hbrace])
  have hitems : ImplItems.ofBody f.braces = .ok ([], []) :=
    ImplItems.ofBody_items [] f.opener f.closer
  refine ⟨⟨t, [], [], marker.args, [], [], [], start, f.closer.stop⟩, rfl, ?_⟩
  refine .before hno (Yields.bind (yields_eatWord f.impl _) ?_)
  refine .before (yields_optionalAngleList none (by rwa [List.append_nil])) ?_
  refine .bind hheader (.before (yields_ofExcept hself _) ?_)
  refine .before hclause (.after (yields_expectGroup f.braces []) ?_)
  exact .before (yields_ofExcept hitems _) (yields_pure _ _)

theorem readsSelf_iff (h : RustType.ofTrees trees none = .ok t)
    (hformed : ∀ other, t ≠ .other other) :
    f.ReadsSelf trees t ↔
      ∀ tree ∈ trees, ImplBlock.endsHead tree = false ∧ tree.isIdent "for" = false := by
  have hleading : Attribute.leading (f.block trees) =
      ([f.marker.value], .token f.impl.1 :: (trees ++ [f.braces.tree])) := by
    have himpl : (.token f.impl.1 :: (trees ++ [f.braces.tree])).head?.any (·.isPunct "#") =
        false :=
      TokenTree.isPunct_eq_false_of_kind (by rw [f.impl.kind_eq]; decide) _
    rw [block, AttributeSyntax.leading_cons, Attribute.leading_eq_nil himpl]
  have hmarker : [f.marker.value].find? (·.name == f.marker.value.name) = some f.marker.value := by
    simp
  have hothers : [f.marker.value].eraseP (·.name == f.marker.value.name) = [] := by simp
  have hangle := f.head?_append h hformed
  constructor
  · rintro ⟨impl, hfound, rfl⟩
    cases hread : ImplBlock.reader f.marker.value.place f.marker.value []
        (.ofTrees (.token f.impl.1 :: (trees ++ [f.braces.tree]))
          (TokenTree.endPlace none (f.block trees))) with
    | error e c =>
      rw [Found.inTrees_refused hleading hmarker (by rw [hothers, hread])] at hfound
      cases congrArg Found.failures hfound
    | ok impl' c =>
      rw [Found.inTrees_read hleading hmarker (by rw [hothers, hread])] at hfound
      have himpls : impl' :: _ = [impl] := congrArg Found.impls hfound
      obtain ⟨rfl, -⟩ := List.cons.inj himpls
      have hself := f.selfType_of_reader hangle hread
      have hsame := (RustType.trees_of_ofTrees hself).symm.trans (RustType.trees_of_ofTrees h)
      exact f.inside_of_selfTrees hsame
  · intro hinside
    obtain ⟨impl, htype, hyields⟩ := f.yields_block f.marker.value.place f.marker.value h hformed hinside
    have hread := hyields [] (TokenTree.endPlace none (f.block trees))
    rw [List.append_nil] at hread
    rw [← hothers] at hread
    refine ⟨impl, ?_, htype⟩
    rw [Found.inTrees_read hleading hmarker hread]
    rw [Cursor.position, List.append_nil, List.length_reverse, List.drop_length,
      Found.inTrees_nil]
    rfl

/-! ### All places together -/

/-- In each of the three places a reference, a path or a tuple is read as what it is on its
own just if nothing among its trees ends the type there or begins it. A path or a tuple
always is in a parameter. -/
theorem reads_iff (h : RustType.ofTrees trees none = .ok t) (hformed : ∀ other, t ≠ .other other) :
    (f.ReadsParameter trees t ↔ splitCommas trees = [trees]) ∧
      (f.ReadsReturn trees t ↔ ∀ tree ∈ trees, Method.endsReturnType tree = false) ∧
      (f.ReadsSelf trees t ↔
        ∀ tree ∈ trees, ImplBlock.endsHead tree = false ∧ tree.isIdent "for" = false) ∧
      ((∀ trees lifetime isMut elem, t ≠ .reference trees lifetime isMut elem) →
        f.ReadsParameter trees t) := by
  refine ⟨f.readsParameter_iff h, f.readsReturn_iff h, f.readsSelf_iff h hformed, ?_⟩
  intro hreference
  exact (f.readsParameter_iff h).2 (RustType.splitCommas_of_ofTrees h hformed hreference)

/-- A path with qualifiers, whose arguments are a lifetime, a tuple and a reference, is read in all
three places. -/
theorem reads_iff_map : ∃ trees t,
    TokenTree.ofSource "std::collections::Map<'a, (u8, Vec<T>), &'a mut [T]>" = .ok trees ∧
      RustType.ofTrees trees none = .ok t ∧ t.baseName? = some "Map" ∧
      ∃ f : TypeFrame, f.ReadsParameter trees t ∧ f.ReadsReturn trees t ∧ f.ReadsSelf trees t := by
  have hruns : ((TokenTree.ofSource
      "std::collections::Map<'a, (u8, Vec<T>), &'a mut [T]>").toOption.bind fun trees =>
        (RustType.ofTrees trees none).toOption.bind fun t => t.baseName?.map fun base =>
          (base, trees.all fun tree => !Method.endsReturnType tree && !ImplBlock.endsHead tree &&
            !tree.isIdent "for")) = some ("Map", true) := by
    decide +kernel
  obtain ⟨trees, htrees, hruns⟩ := Option.bind_eq_some_iff.1 hruns
  obtain ⟨t, ht, hruns⟩ := Option.bind_eq_some_iff.1 hruns
  obtain ⟨base, hbase, heq⟩ := Option.map_eq_some_iff.1 hruns
  obtain ⟨rfl, hplaces⟩ := Prod.mk.inj heq
  have ht := eq_ok_of_toOption ht
  have hother : ∀ other, t ≠ .other other := by
    rintro other rfl
    cases hbase
  have hreference : ∀ trees lifetime isMut elem, t ≠ .reference trees lifetime isMut elem := by
    rintro trees lifetime isMut elem rfl
    cases hbase
  have hplaces : ∀ tree ∈ trees, (Method.endsReturnType tree = false ∧
      ImplBlock.endsHead tree = false) ∧ tree.isIdent "for" = false := by
    simpa using hplaces
  let token (kind : TokenKind) (text : String) : Token := ⟨kind, text, .first, .first⟩
  let f : TypeFrame :=
    { name := ⟨token .ident "x", rfl⟩
      notSelf := by decide
      colon := ⟨token .punct ":", rfl⟩
      fn := ⟨token .ident "fn", rfl⟩
      arrow := ⟨token .punct "->", rfl⟩
      marker := ⟨⟨token .punct "#", rfl⟩, token (.opener .bracket) "[",
        [.token (token .ident "lua_methods")], token (.closer .bracket) "]"⟩
      impl := ⟨token .ident "impl", rfl⟩
      opener := token (.opener .brace) "\x7b"
      closer := token (.closer .brace) "\x7d" }
  obtain ⟨-, hreturn, hself, hparameter⟩ := f.reads_iff ht hother
  exact ⟨trees, t, eq_ok_of_toOption htrees, ht, hbase, f, hparameter hreference,
    hreturn.2 fun tree htree => (hplaces tree htree).1.1,
    hself.2 fun tree htree => ⟨(hplaces tree htree).1.2, (hplaces tree htree).2⟩⟩

/-- Braces in the angle brackets of a path end it as a return type and in the head of a
block, but not in a parameter. -/
theorem misreads_braces : ∃ trees t,
    TokenTree.ofSource "Foo<\x7b N \x7d>" = .ok trees ∧ RustType.ofTrees trees none = .ok t ∧
      t.baseName? = some "Foo" ∧
      ∀ f : TypeFrame, f.ReadsParameter trees t ∧ ¬f.ReadsReturn trees t ∧ ¬f.ReadsSelf trees t := by
  have hruns : ((TokenTree.ofSource "Foo<\x7b N \x7d>").toOption.bind fun trees =>
      (RustType.ofTrees trees none).toOption.bind fun t =>
        t.baseName?.map fun base => (base, trees.any fun tree => tree.isGroup .brace)) =
      some ("Foo", true) := by
    decide +kernel
  obtain ⟨trees, htrees, hruns⟩ := Option.bind_eq_some_iff.1 hruns
  obtain ⟨t, ht, hruns⟩ := Option.bind_eq_some_iff.1 hruns
  obtain ⟨base, hbase, heq⟩ := Option.map_eq_some_iff.1 hruns
  obtain ⟨rfl, hbraces⟩ := Prod.mk.inj heq
  obtain ⟨tree, htree, hbrace⟩ := List.any_eq_true.1 hbraces
  have ht := eq_ok_of_toOption ht
  have hother : ∀ other, t ≠ .other other := by
    rintro other rfl
    cases hbase
  have hreference : ∀ trees lifetime isMut elem, t ≠ .reference trees lifetime isMut elem := by
    rintro trees lifetime isMut elem rfl
    cases hbase
  refine ⟨trees, t, eq_ok_of_toOption htrees, ht, hbase, fun f => ⟨?_, fun hread => ?_,
    fun hread => ?_⟩⟩
  · exact (f.readsParameter_iff ht).2 (RustType.splitCommas_of_ofTrees ht hother hreference)
  · have hno := (f.readsReturn_iff ht).1 hread tree htree
    rw [Method.endsReturnType, hbrace] at hno
    cases hno
  · have hno := ((f.readsSelf_iff ht hother).1 hread tree htree).1
    rw [ImplBlock.endsHead, hbrace] at hno
    cases hno

end TypeFrame

end LuaBindings
