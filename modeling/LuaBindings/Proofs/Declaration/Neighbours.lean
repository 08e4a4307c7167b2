import LuaBindings.Proofs.Declaration.Marked
import LuaBindings.Proofs.Declaration.TypePlaces
import LuaBindings.Proofs.TokenTree.Writing

/-!
# Blocks among the trees of a source

What a block keeps of its source are neighbouring trees somewhere in it: the generic list, the
type and the where clause of the block, and the parameters, the return type and the body of each
of its methods. The type of a parameter is what its trees are read as
(`ImplBlock.standsIn_of_ofSource`).
-/

set_option autoImplicit false

namespace LuaBindings

namespace TokenTree

variable {whole xs ys : List TokenTree}

/-- The trees are neighbours somewhere in the whole, at any depth. -/
def Neighbours (whole xs : List TokenTree) : Prop :=
  ∃ siblings, Level (fun _ => True) whole siblings ∧ xs <:+: siblings

theorem Neighbours.part (h : Neighbours whole ys) (hpart : xs <:+: ys) : Neighbours whole xs := by
  obtain ⟨siblings, hlevel, hys⟩ := h
  exact ⟨siblings, hlevel, hpart.trans hys⟩

theorem Neighbours.inside {g : Group} (h : Neighbours whole xs) (hg : g.tree ∈ xs) :
    Neighbours whole g.inner := by
  obtain ⟨siblings, hlevel, hxs⟩ := h
  obtain ⟨front, rest, rfl⟩ := List.append_of_mem (hxs.subset hg)
  exact ⟨g.inner, hlevel.inside trivial, List.infix_refl _⟩

theorem Level.neighbours {enters : Delimiter → Prop} (h : Level enters whole xs) :
    Neighbours whole xs := by
  refine ⟨xs, ?_, List.infix_refl xs⟩
  induction h with
  | top => exact .top
  | inside _ _ ih => exact ih.inside trivial

section
variable {text : List Char}

theorem Neighbours.formed (h : Neighbours whole xs) (htrees : ofText text = .ok whole) :
    Formed xs := by
  obtain ⟨siblings, hlevel, hxs⟩ := h
  obtain ⟨_, hformed, _⟩ := outcome_of_ofText htrees
  exact (hlevel.formed hformed).of_part hxs

theorem Neighbours.infix_significant (h : Neighbours whole xs) (htrees : ofText text = .ok whole) :
    flatten xs <:+: (NestingScan.ofText text).significant := by
  obtain ⟨siblings, hlevel, hxs⟩ := h
  exact TokenTree.infix_significant htrees hlevel hxs

theorem Neighbours.pairwise (h : Neighbours whole xs) (htrees : ofText text = .ok whole) :
    (flatten xs).Pairwise fun a b => a.stop.offset ≤ b.start.offset := by
  obtain ⟨siblings, hlevel, hxs⟩ := h
  exact (laid_flatten htrees).pairwise.sublist
    ((infix_flatten hxs).trans hlevel.infix_flatten).sublist

/-- Neighbours in a text are written as they are laid out on one line. -/
theorem Neighbours.written (h : Neighbours whole xs) (htrees : ofText text = .ok whole) :
    NestingScan.Written (Layout.inline xs).toList (words xs) := by
  obtain ⟨_, hstart, hspells⟩ := Layout.spells_inlineTokens (h.pairwise htrees)
  exact hspells.written_ofText hstart (h.infix_significant htrees)

/-- Neighbours in a text print themselves if they are local. -/
theorem Neighbours.prints (h : Neighbours whole xs) (htrees : ofText text = .ok whole)
    (hlocal : Local xs) : Prints (Layout.inline xs).toList xs :=
  .of_written (h.written htrees) (h.formed htrees) hlocal

/-- A token of a text is a lexeme of its kind. -/
theorem Neighbours.isLexeme_of_mem_flatten {t : Token} (h : Neighbours whole xs)
    (htrees : ofText text = .ok whole) (ht : t ∈ flatten xs) :
    Terminal.IsLexeme t.kind t.text := by
  obtain ⟨front, back, hsplit⟩ := List.append_of_mem ht
  have hone : [t] <:+: flatten xs := ⟨front, back, by rw [hsplit]; simp⟩
  obtain ⟨_, text', tokens, _, _, hcut, more, hfront⟩ :=
    Spells.exists_cut (hone.trans (h.infix_significant htrees))
  obtain ⟨_, _, _, _, _, _, _, hnext, _⟩ := hcut.exists_next hfront.symm
  exact (Terminal.next?_append_iff.1 hnext).1

theorem Neighbours.isLexeme {t : Token} (h : Neighbours whole xs) (htrees : ofText text = .ok whole)
    (ht : TokenTree.token t ∈ xs) : Terminal.IsLexeme t.kind t.text := by
  obtain ⟨front, back, rfl⟩ := List.append_of_mem ht
  refine h.isLexeme_of_mem_flatten htrees ?_
  rw [flatten_append, flatten_token_cons]
  simp

end

end TokenTree

open TokenTree (Neighbours)

/-- The pattern and the type stand in the whole, and the type is read from its trees. -/
structure Parameter.StandsIn (whole : List TokenTree) (p : Parameter) : Prop where
  pattern : Neighbours whole p.pattern
  type : Neighbours whole p.type.trees
  reads : ∃ anchor, RustType.ofTrees p.type.trees anchor = .ok p.type

/-- The parameters, the return type and the body stand in the whole. -/
structure Method.StandsIn (whole : List TokenTree) (m : Method) : Prop where
  params : ∀ p ∈ m.params, p.StandsIn whole
  returnType : ∀ type, m.returnType = some type → Neighbours whole type.trees
  body : Neighbours whole m.body.inner

structure ImplBlock.StandsIn (whole : List TokenTree) (impl : ImplBlock) : Prop where
  generics : Neighbours whole impl.generics
  angle : ∀ tree ∈ impl.generics.head?, tree.isPunct "<" = true
  closed : ∀ tree ∈ impl.generics.getLast?, tree.isPunct ">" = true
  selfType : Neighbours whole impl.selfType.trees
  whereClause : Neighbours whole impl.whereClause
  word : ∀ tree ∈ impl.whereClause.head?, tree.isIdent "where" = true
  methods : ∀ m ∈ impl.methods, m.StandsIn whole

namespace Reader

variable {whole : List TokenTree} {c c' : Cursor} {attributes : List Attribute} {p : Parameter}

theorem neighbours_of_takes {taken : List TokenTree} (h : Neighbours whole c.rest)
    (htakes : c.Takes taken c') : Neighbours whole taken ∧ Neighbours whole c'.rest := by
  rw [htakes.rest_eq] at h
  exact ⟨h.part (List.prefix_append _ _).isInfix, h.part (List.suffix_append _ _).isInfix⟩

theorem Advances.neighbours {α : Type} {reader : Reader α} {a : α} (h : reader.Advances)
    (hread : reader c = .ok a c') (hrest : Neighbours whole c.rest) : Neighbours whole c'.rest := by
  obtain ⟨taken, htakes⟩ := h _ _ _ hread
  exact (neighbours_of_takes hrest htakes).2

theorem advances_attributes : Advances Reader.attributes := by
  intro c a c' h
  cases h
  exact ⟨_, c.takes_skip _⟩

theorem advances_expectIdent (name : Option String) : Advances (expectIdent name) := by
  have hident : Advances (eatIdent name) := by
    cases name <;> exact advances_eat _
  refine advances_bind hident fun t => ?_
  cases t with
  | none => exact advances_fail _
  | some t => exact advances_pure t

theorem advances_next : Advances next := by
  intro c a c' h
  unfold next at h
  split at h
  · cases h
  · cases h
    exact ⟨_, c.takes_skip 1⟩

theorem standsIn_of_parameter (h : parameter attributes c = .ok p c')
    (hrest : Neighbours whole c.rest) : p.StandsIn whole := by
  obtain ⟨pattern, c₁, hpattern, h⟩ := bind_eq_ok h
  have hbehind := (advances_takeUntil _).neighbours hpattern hrest
  have hfront : pattern <+: c.rest := by
    cases hpattern
    exact List.takeWhile_prefix _
  cases pattern with
  | nil => cases h
  | cons first others =>
    obtain ⟨colon, c₂, hcolon, h⟩ := bind_eq_ok h
    obtain ⟨type, c₃, htype, h⟩ := bind_eq_ok h
    have htypes := (advances_expectPunct ":").neighbours hcolon hbehind
    obtain ⟨trees, c₄, htrees, htype⟩ := bind_eq_ok htype
    cases htrees
    obtain ⟨hread, -⟩ := ofExcept_eq_ok htype
    have heq := RustType.trees_of_ofTrees hread
    cases h
    refine ⟨hrest.part hfront.isInfix, ?_, some colon.start, ?_⟩
    · rwa [heq]
    · rwa [heq]

theorem standsIn_of_anyParameter (h : anyParameter c = .ok p c')
    (hrest : Neighbours whole c.rest) : p.StandsIn whole := by
  obtain ⟨attributes, c₁, hattributes, h⟩ := bind_eq_ok h
  exact standsIn_of_parameter h (advances_attributes.neighbours hattributes hrest)

theorem standsIn_of_firstParameter (h : firstParameter c = .ok (.inr p) c')
    (hrest : Neighbours whole c.rest) : p.StandsIn whole := by
  obtain ⟨attributes, c₁, hattributes, h⟩ := bind_eq_ok h
  have hbehind := advances_attributes.neighbours hattributes hrest
  obtain ⟨receiver, c₂, hreceiver, h⟩ := bind_eq_ok h
  have hsame : c₂ = c₁ := by
    unfold lookahead at hreceiver
    split at hreceiver <;> cases hreceiver
    rfl
  subst hsame
  cases receiver with
  | some receiver => cases h
  | none =>
    obtain ⟨q, c₃, hparameter, h⟩ := bind_eq_ok h
    cases h
    exact standsIn_of_parameter hparameter hbehind

theorem exists_of_runOn {α : Type} {reader : Reader α} {trees : List TokenTree} {anchor : Location}
    {a : α} (h : reader.runOn trees anchor = .ok a) :
    ∃ c', reader (Cursor.ofTrees trees (some anchor)) = .ok a c' := by
  unfold runOn at h
  split at h
  · rename_i hread
    cases h
    exact ⟨_, hread⟩
  · cases h

end Reader

variable {whole trees : List TokenTree}

namespace Method

theorem standsIn_of_parametersOf {g : Group} {receiver : Option Receiver} {params : List Parameter}
    (h : parametersOf g = .ok (receiver, params)) (hinner : Neighbours whole g.inner) :
    ∀ p ∈ params, p.StandsIn whole := by
  have hchunk {chunk : List TokenTree} (hmem : chunk ∈ TokenTree.splitCommas g.inner) :
      Neighbours whole chunk := hinner.part (TokenTree.infix_of_mem_splitCommas hmem)
  unfold parametersOf at h
  split at h
  · cases h
    simp
  · rename_i first others hsplit
    rw [hsplit] at hchunk
    obtain ⟨slot, hfirst, h⟩ := exists_of_bind_eq_ok h
    obtain ⟨rest, hrest, h⟩ := exists_of_bind_eq_ok h
    have hothers : ∀ p ∈ rest, p.StandsIn whole := by
      intro p hp
      obtain ⟨chunk, hmem, hread⟩ := exists_of_forall₂ (mapM_eq_ok_iff.1 hrest).flip p hp
      obtain ⟨c', hread⟩ := Reader.exists_of_runOn hread
      exact Reader.standsIn_of_anyParameter hread (hchunk (List.mem_cons_of_mem _ hmem))
    cases slot with
    | inl receiver =>
      cases h
      exact hothers
    | inr p =>
      cases h
      obtain ⟨c', hread⟩ := Reader.exists_of_runOn hfirst
      refine List.forall_mem_cons.2 ⟨?_, hothers⟩
      exact Reader.standsIn_of_firstParameter hread (hchunk List.mem_cons_self)

theorem neighbours_of_returnTypeReader {start : Location} {c c' : Cursor}
    {returnType : Option RustType} (h : returnTypeReader start c = .ok returnType c')
    (hrest : Neighbours whole c.rest) :
    (∀ type, returnType = some type → Neighbours whole type.trees) ∧
      Neighbours whole c'.rest := by
  obtain ⟨arrow, c₁, harrow, h⟩ := Reader.bind_eq_ok h
  have h₁ := (Reader.advances_eat _).neighbours harrow hrest
  cases arrow with
  | none =>
    cases h
    exact ⟨nofun, h₁⟩
  | some arrow =>
    obtain ⟨trees, c₂, htrees, h⟩ := Reader.bind_eq_ok h
    obtain ⟨type, c₃, htype, h⟩ := Reader.bind_eq_ok h
    obtain ⟨hread, hsame⟩ := Reader.ofExcept_eq_ok htype
    obtain ⟨hstands, h₂⟩ := Reader.neighbours_of_takes h₁ (Reader.takeUntil_eq_ok htrees)
    cases h
    refine ⟨?_, ?_⟩
    · rintro _ ⟨⟩
      rwa [RustType.trees_of_ofTrees hread]
    · rwa [hsame]

theorem neighbours_of_bodyReader {c c' : Cursor} {body : Group}
    (h : bodyReader c = .ok body c') (hrest : Neighbours whole c.rest) :
    Neighbours whole body.inner := by
  obtain ⟨clause, c₁, hclause, h⟩ := Reader.bind_eq_ok h
  have h₁ := (Reader.advances_takeUntil _).neighbours hclause hrest
  obtain ⟨isEnd, c₂, hsees, h⟩ := Reader.bind_eq_ok h
  cases hsees
  split at h
  · cases h
  · obtain ⟨-, htakes⟩ := Reader.expectGroup_eq_ok h
    exact (Reader.neighbours_of_takes h₁ htakes).1.inside (g := body) List.mem_cons_self

theorem standsIn_of_reader {attributes : List Attribute} {c c' : Cursor} {m : Method}
    (h : Method.reader attributes c = .ok m c') (hrest : Neighbours whole c.rest) :
    m.StandsIn whole := by
  obtain ⟨qualifiers, c₁, hqualifiers, h⟩ := Reader.bind_eq_ok h
  obtain ⟨fn, c₂, hfn, h⟩ := Reader.bind_eq_ok h
  obtain ⟨name, c₃, hname, h⟩ := Reader.bind_eq_ok h
  obtain ⟨generics, c₄, hgenerics, h⟩ := Reader.bind_eq_ok h
  obtain ⟨group, c₅, hgroup, h⟩ := Reader.bind_eq_ok h
  obtain ⟨⟨receiver, params⟩, c₆, hparams, h⟩ := Reader.bind_eq_ok h
  obtain ⟨returnType, c₇, hreturns, h⟩ := Reader.bind_eq_ok h
  obtain ⟨body, c₈, hbody, h⟩ := Reader.bind_eq_ok h
  have h₁ := (Reader.advances_takeUntil _).neighbours hqualifiers hrest
  have h₂ := (Reader.advances_expectIdent _).neighbours hfn h₁
  have h₃ := (Reader.advances_expectIdent _).neighbours hname h₂
  have h₄ := Reader.advances_optionalAngleList.neighbours hgenerics h₃
  obtain ⟨-, htakes⟩ := Reader.expectGroup_eq_ok hgroup
  obtain ⟨htaken, h₅⟩ := Reader.neighbours_of_takes h₄ htakes
  have hinner := htaken.inside (g := group) List.mem_cons_self
  obtain ⟨hparams, hsame⟩ := Reader.ofExcept_eq_ok hparams
  rw [← hsame] at h₅
  obtain ⟨hreturns, h₆⟩ := neighbours_of_returnTypeReader hreturns h₅
  have hinside := neighbours_of_bodyReader hbody h₆
  cases h
  exact ⟨standsIn_of_parametersOf hparams hinner, hreturns, hinside⟩

end Method

theorem ImplItem.advances_visibility : visibility.Advances := by
  refine Reader.advances_bind (Reader.advances_eatWord _) fun isPub => ?_
  split
  · refine Reader.advances_bind (Reader.advances_sees _) fun isGroup => ?_
    split
    · exact Reader.advances_bind Reader.advances_next fun _ => Reader.advances_pure ()
    · exact Reader.advances_pure ()
  · exact Reader.advances_pure ()

theorem ImplItem.standsIn_of_reader {c c' : Cursor} {m : Method}
    (h : ImplItem.reader trees c = .ok (.method m) c') (hrest : Neighbours whole c.rest) :
    m.StandsIn whole := by
  obtain ⟨attributes, c₁, hattributes, h⟩ := Reader.bind_eq_ok h
  obtain ⟨_, c₂, hvisibility, h⟩ := Reader.bind_eq_ok h
  obtain ⟨c₃, c₄, hget, h⟩ := Reader.bind_eq_ok h
  have h₁ := Reader.advances_attributes.neighbours hattributes hrest
  have h₂ := advances_visibility.neighbours hvisibility h₁
  cases hget
  split at h
  · obtain ⟨m', c₅, hmethod, h⟩ := Reader.bind_eq_ok h
    cases h
    exact Method.standsIn_of_reader hmethod h₂
  · obtain ⟨_, c₅, hset, h⟩ := Reader.bind_eq_ok h
    cases h

theorem ImplItems.standsIn_of_ofTrees (h : Neighbours whole trees) :
    ∀ m ∈ (ofTrees trees).methods, m.StandsIn whole := by
  fun_induction ofTrees trees with
  | case1 => simp
  | case2 tree rest item c hread _ ih =>
    have hbehind := ih (h.part (List.drop_suffix _ _).isInfix)
    cases item with
    | other => exact hbehind
    | method m => exact List.forall_mem_cons.2 ⟨ImplItem.standsIn_of_reader hread h, hbehind⟩
  | case3 tree rest f c hread _ _ items ih =>
    exact ih (h.part ((ImplItem.throughEnd_suffix _).trans (List.drop_suffix _ _)).isInfix)

/-! ### Blocks -/

namespace ImplBlock

theorem selfTrees_suffix (header : List TokenTree) : selfTrees header <:+ header := by
  have hsuffix := List.dropWhile_suffix (l := header) fun tree => !tree.isIdent "for"
  unfold selfTrees
  split
  · exact List.suffix_refl header
  · rename_i first rest heq
    rw [heq] at hsuffix
    exact (List.suffix_cons first rest).trans hsuffix

/-- A where clause begins with its keyword. -/
theorem word_of_takeUntil {c c' : Cursor} {clause : List TokenTree}
    (hends : ∀ tree ∈ c.rest.head?, endsHead tree = true)
    (h : Reader.takeUntil (·.isGroup .brace) c = .ok clause c') :
    ∀ tree ∈ clause.head?, tree.isIdent "where" = true := by
  cases h
  intro tree htree
  cases hrest : c.rest with
  | nil => simp [hrest] at htree
  | cons first others =>
    rw [hrest] at hends htree
    have hfirst := hends first rfl
    unfold endsHead at hfirst
    cases hbrace : first.isGroup .brace with
    | true => simp [hbrace] at htree
    | false =>
      have hsame : first = tree := by simpa [List.takeWhile_cons, hbrace] using htree
      rw [hbrace, Bool.false_or] at hfirst
      exact hsame ▸ hfirst

/-- What a block keeps are trees that it is read from; its attributes and its start are those it
is given. -/
theorem standsIn_of_reader {start : Location} {marker : Attribute} {attributes : List Attribute}
    {c c' : Cursor} {impl : ImplBlock}
    (h : ImplBlock.reader start marker attributes c = .ok impl c')
    (hrest : Neighbours whole c.rest) :
    impl.StandsIn whole ∧ impl.attributes = attributes ∧ impl.start = start := by
  unfold reader at h
  obtain ⟨_, c₁, hunsafe, h⟩ := Reader.bind_eq_ok h
  obtain ⟨isImpl, c₂, himpl, h⟩ := Reader.bind_eq_ok h
  have h₁ := (Reader.advances_eatWord _).neighbours hunsafe hrest
  have h₂ := (Reader.advances_eatWord _).neighbours himpl h₁
  cases isImpl with
  | false =>
    obtain ⟨_, _, hthrow, _⟩ := Reader.bind_eq_ok h
    cases hthrow
  | true =>
    rw [if_neg (by decide)] at h
    obtain ⟨generics, c₃, hgenerics, h⟩ := Reader.bind_eq_ok h
    obtain ⟨header, c₄, hheader, h⟩ := Reader.bind_eq_ok h
    obtain ⟨selfType, c₅, htype, h⟩ := Reader.bind_eq_ok h
    obtain ⟨whereClause, c₆, hwhere, h⟩ := Reader.bind_eq_ok h
    obtain ⟨body, c₇, hbody, h⟩ := Reader.bind_eq_ok h
    obtain ⟨⟨methods, others⟩, c₈, hitems, h⟩ := Reader.bind_eq_ok h
    obtain ⟨hgenericsTaken, hangle, hclosed⟩ := Reader.optionalAngleList_eq_ok hgenerics
    obtain ⟨hgenerics, h₃⟩ := Reader.neighbours_of_takes h₂ hgenericsTaken
    have hends := Reader.head?_of_takeUntil hheader
    obtain ⟨hheader, h₄⟩ := Reader.neighbours_of_takes h₃ (Reader.takeUntil_eq_ok hheader)
    obtain ⟨hread, hsame⟩ := Reader.ofExcept_eq_ok htype
    rw [← hsame] at h₄ hends
    have hword := word_of_takeUntil hends hwhere
    obtain ⟨hwhere, h₅⟩ := Reader.neighbours_of_takes h₄ (Reader.takeUntil_eq_ok hwhere)
    obtain ⟨-, hbodyTaken⟩ := Reader.expectGroup_eq_ok hbody
    have hinner := (Reader.neighbours_of_takes h₅ hbodyTaken).1.inside (g := body)
      List.mem_cons_self
    obtain ⟨hitems, -⟩ := Reader.ofExcept_eq_ok hitems
    obtain ⟨-, heq⟩ := Failure.refuse_eq_ok hitems
    cases h
    refine ⟨⟨hgenerics, hangle, hclosed, ?_, hwhere, hword, ?_⟩, rfl, rfl⟩
    · change Neighbours whole selfType.trees
      rw [RustType.trees_of_ofTrees hread]
      exact hheader.part (selfTrees_suffix header).isInfix
    · change ∀ m ∈ methods, m.StandsIn whole
      rw [← (Prod.mk.inj heq).1]
      exact ImplItems.standsIn_of_ofTrees hinner

/-- The attributes are those in front of the block. One of them marks it, and the first that
does is left out. -/
structure LedBy (whole : List TokenTree) (attrName : String) (impl : ImplBlock)
    (attributes : List Attribute) : Prop where
  stands : ∃ trees, Neighbours whole trees ∧ (Attribute.leading trees).1 = attributes
  start : attributes.head?.map Attribute.place = some impl.start
  marked : ∃ a ∈ attributes, a.name = attrName
  kept : impl.attributes = attributes.eraseP (·.name == attrName)

end ImplBlock

/-- The attributes that a block keeps stand in the whole. -/
theorem ImplBlock.LedBy.neighbours {attrName : String} {impl : ImplBlock}
    {attributes : List Attribute} (h : impl.LedBy whole attrName attributes) :
    ∀ a ∈ impl.attributes, a.Formed ∧ Neighbours whole a.trees := by
  obtain ⟨trees, hstands, hleading⟩ := h.stands
  obtain ⟨after, hleading⟩ : ∃ after, Attribute.leading trees = (attributes, after) :=
    ⟨_, Prod.ext hleading rfl⟩
  obtain ⟨htrees, hformed, -⟩ := Attribute.leading_eq hleading
  intro a ha
  rw [h.kept] at ha
  have hmem := List.mem_of_mem_eraseP ha
  refine ⟨hformed a hmem, ?_⟩
  obtain ⟨front, back, rfl⟩ := List.append_of_mem hmem
  refine hstands.part ⟨front.flatMap Attribute.trees,
    back.flatMap Attribute.trees ++ after, ?_⟩
  rw [htrees]
  simp

/-- The blocks that a search finds stand in the whole, behind their attributes. -/
theorem Found.standsIn_of_mem_inTrees {attrName : String} (h : Neighbours whole trees) :
    ∀ impl ∈ (inTrees attrName trees).impls,
      impl.StandsIn whole ∧ ∃ attributes, impl.LedBy whole attrName attributes := by
  fun_induction inTrees attrName trees with
  | case1 => simp [empty]
  | case2 tree rest after hleading _ _ ihinner ihrest =>
    refine fun impl himpl => (List.mem_append.1 himpl).elim (fun hin => ?_) (fun hin => ?_)
    · rcases inBraces_cases tree with hnil | ⟨g, -, rfl, hinner⟩
      · rw [hnil, inTrees_nil] at hin
        cases hin
      · rw [hinner] at ihinner hin
        exact ihinner (h.inside List.mem_cons_self) impl hin
    · exact ihrest (h.part (List.suffix_cons _ _).isInfix) impl hin
  | case3 tree rest first others after hleading _ attributes hnone =>
    rename_i ih
    have hsuffix := Attribute.leading_suffix (tree :: rest)
    rw [hleading] at hsuffix
    exact ih (h.part hsuffix.isInfix)
  | case4 tree rest first others after hleading _ attributes marker hsome anchor reader impl c
      hread =>
    rename_i ih
    have hsuffix := Attribute.leading_suffix (tree :: rest)
    rw [hleading] at hsuffix
    obtain ⟨hstands, hkept, hstart⟩ :=
      ImplBlock.standsIn_of_reader hread (h.part hsuffix.isInfix)
    have hmarker : ∃ a ∈ first :: others, a.name = attrName :=
      ⟨marker, List.mem_of_find?_eq_some hsome, by simpa using List.find?_some hsome⟩
    refine List.forall_mem_cons.2
      ⟨⟨hstands, first :: others, ⟨_, h, by rw [hleading]⟩, ?_, hmarker, hkept⟩, ?_⟩
    · rw [hstart]
      rfl
    · exact ih (h.part ((List.drop_suffix _ _).trans hsuffix).isInfix)
  | case5 tree rest first others after hleading _ attributes marker hsome anchor reader f c hread =>
    rename_i ih
    have hsuffix := Attribute.leading_suffix (tree :: rest)
    rw [hleading] at hsuffix
    exact ih (h.part ((ImplItem.throughEnd_suffix _).trans hsuffix).isInfix)

/-- The blocks of a source stand in it, behind their attributes. -/
theorem ImplBlock.standsIn_of_ofSource {source attrName : String} {impls : List ImplBlock}
    (h : ofSource source attrName = .ok impls) :
    ∃ whole, TokenTree.ofText source.toList = .ok whole ∧
      ∀ impl ∈ impls, impl.StandsIn whole ∧ ∃ attributes, impl.LedBy whole attrName attributes := by
  obtain ⟨whole, htext, -, rfl⟩ := ofSource_eq_ok_iff.1 h
  exact ⟨whole, htext, Found.standsIn_of_mem_inTrees ⟨whole, .top, List.infix_refl whole⟩⟩

end LuaBindings
