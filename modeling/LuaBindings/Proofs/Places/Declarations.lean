import LuaBindings.Declaration.Search
import LuaBindings.Proofs.Declaration.TypePlaces
import LuaBindings.Proofs.Places.Readers

/-!
# Where declarations fail

Attributes, types, methods and impl blocks are read from the tokens of a text and fail at one of
them. What is read keeps places of its own, which are also those of tokens: later failures are
reported there (`ImplBlock.Anchored`).
-/

set_option autoImplicit false

namespace LuaBindings

variable {tokens : List Token}

/-! ### Attributes -/

/-- The attribute is placed at one of the tokens, its path is made of names among them, and its
arguments consist of them. -/
structure Attribute.Anchored (tokens : List Token) (a : Attribute) : Prop where
  placed : Placed tokens (some a.place)
  path : ∀ segment ∈ a.path, IsWord tokens segment
  args : ∀ g ∈ a.args, DrawnFrom tokens [g.tree]

namespace Attribute

theorem pathOf_suffix (trees : List TokenTree) : (pathOf trees).2 <:+ trees := by
  fun_induction pathOf trees with
  | case1 tree rest => exact List.suffix_refl _
  | case2 tree t ht colons rest hcolons path after heq ih =>
    rw [heq] at ih
    exact (ih.trans (List.suffix_cons _ _)).trans (List.suffix_cons _ _)
  | case3 tree t ht colons rest => exact List.suffix_cons _ _
  | case4 tree t ht => exact List.suffix_cons _ _
  | case5 => exact List.suffix_refl _

theorem isWord_pathOf {trees : List TokenTree} (h : DrawnFrom tokens trees) :
    ∀ segment ∈ (pathOf trees).1, IsWord tokens segment := by
  have hword {tree : TokenTree} {t : Token} (hdrawn : tree.tokens ⊆ tokens)
      (ht : tree.token? (·.kind == .ident) = some t) : IsWord tokens t.text := by
    obtain ⟨rfl, hkind⟩ := TokenTree.token?_eq_some ht
    exact ⟨t, hdrawn (by simp [TokenTree.tokens]), beq_iff_eq.1 hkind, rfl⟩
  fun_induction pathOf trees with
  | case1 tree rest => exact List.forall_mem_nil _
  | case2 tree t ht colons rest hcolons path after heq ih =>
    rw [heq] at ih
    refine List.forall_mem_cons.2 ⟨hword (h tree List.mem_cons_self) ht, ih (h.of_subset ?_)⟩
    exact fun _ htree => List.mem_cons_of_mem _ (List.mem_cons_of_mem _ htree)
  | case3 tree t ht colons rest =>
    exact List.forall_mem_singleton.2 (hword (h tree List.mem_cons_self) ht)
  | case4 tree t ht => exact List.forall_mem_singleton.2 (hword (h tree List.mem_cons_self) ht)
  | case5 => exact List.forall_mem_nil _

theorem Anchored.quotes_name {a : Attribute} (h : a.Anchored tokens) :
    (Cause.notAnImpl a.name).Quotes tokens := by
  rw [name]
  cases hlast : a.path.getLast? with
  | none => exact .inl rfl
  | some segment => exact .inr (h.path segment (List.mem_of_getLast? hlast))

/-- The path and the arguments are read from among what is in the brackets. -/
theorem exists_ofBrackets (hash : Token) (brackets : Group) :
    ∃ inner, inner ⊆ brackets.inner ∧ (ofBrackets hash brackets).path = (pathOf inner).1 ∧
      (ofBrackets hash brackets).args = (pathOf inner).2.head?.bind (TokenTree.group? .paren) := by
  refine ⟨_, ?_, rfl, rfl⟩
  split
  · rename_i tree rest heq
    rw [heq]
    split
    · exact List.subset_cons_self _ _
    · exact List.Subset.refl _
  · exact List.nil_subset _

theorem anchored_ofBrackets {hash : Token} {brackets : Group} (hhash : hash ∈ tokens)
    (h : DrawnFrom tokens [brackets.tree]) : (ofBrackets hash brackets).Anchored tokens := by
  obtain ⟨inner, hsubset, hpath, hargs⟩ := exists_ofBrackets hash brackets
  have hinner := (h.group (List.mem_singleton_self _)).2.of_subset hsubset
  refine ⟨placed_of_mem hhash, hpath ▸ isWord_pathOf hinner, fun g hg => ?_⟩
  rw [hargs] at hg
  obtain ⟨tree, hnext, hgroup⟩ := Option.bind_eq_some_iff.1 hg
  obtain ⟨-, rfl⟩ := TokenTree.group?_eq_some hgroup
  have hinside := (pathOf_suffix _).subset (List.mem_of_head? hnext)
  refine hinner.of_subset fun tree htree => ?_
  rw [List.mem_singleton.1 htree]
  exact hinside

theorem anchored_leading {trees : List TokenTree} (h : DrawnFrom tokens trees) :
    ∀ a ∈ (leading trees).1, a.Anchored tokens := by
  fun_induction leading trees with
  | case1 hash brackets rest t g hg ht attributes after heq ih =>
    obtain ⟨rfl, -⟩ := TokenTree.token?_eq_some ht
    obtain ⟨-, rfl⟩ := TokenTree.group?_eq_some hg
    rw [heq] at ih
    have hrest : DrawnFrom tokens rest := h.of_subset fun tree htree =>
      List.mem_cons_of_mem _ (List.mem_cons_of_mem _ htree)
    have hbrackets : DrawnFrom tokens [g.tree] := h.of_subset fun tree htree =>
      List.mem_cons_of_mem _ (List.mem_cons.2 (.inl (List.mem_singleton.1 htree)))
    exact List.forall_mem_cons.2
      ⟨anchored_ofBrackets (h.token List.mem_cons_self) hbrackets, ih hrest⟩
  | case2 => exact List.forall_mem_nil _
  | case3 => exact List.forall_mem_nil _

end Attribute

/-! ### Types -/

namespace RustType

variable {trees : List TokenTree} {anchor : Option Location}

/-- A segment fails where one of its arguments does. -/
theorem meets_segmentOf {part : PathPart} (h : DrawnFrom tokens part.angle)
    (htype : ∀ chunk anchor, TokenTree.count chunk < TokenTree.count part.angle →
      DrawnFrom tokens chunk → Placed tokens anchor →
        Meets (Failure.Concerns tokens) (fun _ => True) (ofTrees chunk anchor)) :
    Meets (Failure.Concerns tokens) (fun _ => True) (segmentOf part) := by
  have hangle : ∀ chunk ∈ TokenTree.splitCommas (TokenTree.angleInner part.angle),
      Placed tokens (part.angle.head?.map TokenTree.start) := by
    intro chunk hchunk
    cases hpart : part.angle with
    | nil =>
      rw [hpart] at hchunk
      cases hchunk
    | cons tree angle =>
      rw [hpart] at h
      exact h.placed List.mem_cons_self
  refine (meets_mapM_any fun chunk hchunk => ?_).map_any _
  rw [argOf]
  split
  · exact trivial
  · have hsub : chunk.Sublist part.angle :=
      (TokenTree.sublist_of_mem_splitCommas hchunk).trans
        ((List.dropLast_sublist _).trans (List.drop_sublist _ _))
    exact (htype chunk _ (TokenTree.count_lt_of_mem_angle hchunk) (h.of_subset hsub.subset)
      (hangle chunk hchunk)).map_any _

/-- A path with an angle list that does not close fails at the last tree. -/
theorem meets_ofSegments (h : DrawnFrom tokens trees) (hne : trees ≠ []) (leadingColon : Bool)
    (ending : PathEnd) (segments : List PathSegment) :
    Meets (Failure.Concerns tokens) (fun _ => True)
      (ofSegments trees leadingColon ending segments) := by
  unfold ofSegments
  split
  · exact Failure.concerns_single (placed_endPlace h fun hnil => absurd hnil hne) trivial
  · split <;> exact trivial
  · exact trivial

/-- By induction on the number of tokens, since types stand inside of types. -/
theorem meets_ofTrees_any (h : DrawnFrom tokens trees)
    (hanchor : trees = [] → Placed tokens anchor) :
    Meets (Failure.Concerns tokens) (fun _ => True) (ofTrees trees anchor) := by
  induction hcount : TokenTree.count trees using Nat.strongRecOn generalizing trees anchor with
  | ind n ih =>
    subst hcount
    cases trees with
    | nil =>
      rw [ofTrees]
      exact Failure.concerns_single (hanchor rfl) trivial
    | cons first rest =>
      have hfirst := h.placed (List.mem_cons_self (a := first) (l := rest))
      rw [ofTrees_cons]
      split
      · have hsub :=
          (leadingToken_sublist (·.isIdent "mut") _).trans (leadingLifetime_sublist rest)
        have hlt := Nat.lt_of_le_of_lt (TokenTree.count_le_of_sublist hsub)
          (TokenTree.count_lt_cons first rest)
        exact (ih _ hlt (h.of_subset (hsub.cons first).subset) (fun _ => hfirst) rfl).map_any _
      · split
        · rename_i g hparen
          refine (meets_mapM_any fun chunk hchunk => ?_).map_any _
          have hlt := Nat.lt_of_le_of_lt (TokenTree.count_le_of_mem_splitCommas hchunk)
            (count_onlyParen hparen)
          have hmem : g.tree ∈ first :: rest := by
            rw [eq_of_onlyParen hparen]
            exact List.mem_singleton_self _
          have hdrawn := (h.group hmem).2.of_subset
            (TokenTree.sublist_of_mem_splitCommas hchunk).subset
          exact ih _ hlt hdrawn (fun _ => hfirst) rfl
        · split
          · refine (meets_mapM_any fun part hpart => ?_).bind fun segments _ =>
              meets_ofSegments h (List.cons_ne_nil _ _) _ _ segments
            have hsub := (angle_sublist_of_mem_pathParts _ part hpart).trans
              (leadingToken_sublist _ _)
            refine meets_segmentOf (h.of_subset hsub.subset) fun chunk _ hlt hdrawn hplaced => ?_
            exact ih _ (Nat.lt_of_lt_of_le hlt (TokenTree.count_le_of_sublist hsub)) hdrawn
              (fun _ => hplaced) rfl
          · exact trivial

/-- Types begin with one of the tokens. -/
theorem meets_ofTrees (h : DrawnFrom tokens trees) (hanchor : trees = [] → Placed tokens anchor) :
    Meets (Failure.Concerns tokens) (fun t => Placed tokens (t.trees.head?.map TokenTree.start))
      (ofTrees trees anchor) := by
  refine (meets_ofTrees_any h hanchor).mono fun t hread _ => ?_
  cases trees with
  | nil =>
    rw [ofTrees] at hread
    cases hread
  | cons first rest =>
    rw [trees_of_ofTrees hread]
    exact h.placed List.mem_cons_self

end RustType

/-! ### Parameters -/

/-- The parameter is placed at one of the tokens, and so are its attributes. -/
structure Parameter.Anchored (tokens : List Token) (p : Parameter) : Prop where
  placed : Placed tokens (some p.place)
  attributes : ∀ a ∈ p.attributes, a.Anchored tokens

namespace Reader

theorem keeps_attributes :
    Keeps tokens (fun attributes => ∀ a ∈ attributes, a.Anchored tokens) attributes :=
  fun _ hc => ⟨Attribute.anchored_leading hc.rest, hc.skip _⟩

theorem keeps_typeOfRest {anchor : Location} (h : Placed tokens (some anchor)) :
    Keeps tokens (fun _ => True) (typeOfRest anchor) :=
  keeps_rest.bind fun _ htrees => keeps_ofExcept (RustType.meets_ofTrees htrees fun _ => h).any

theorem keeps_whenAtEnd {α : Type} (value : α) :
    Keeps tokens (fun _ => True) (whenAtEnd value) := fun _ hc => ⟨trivial, hc⟩

theorem keeps_referenceReceiver : Keeps tokens (fun _ => True) referenceReceiver := by
  refine (keeps_eat _).bind fun lifetime _ => (keeps_eatWord _).bind fun isMut _ =>
    (keeps_eatWord _).bind fun isSelf _ => ?_
  split
  · exact keeps_whenAtEnd _
  · exact keeps_pure trivial

theorem keeps_receiver : Keeps tokens (fun _ => True) receiver := by
  refine (keeps_eat _).bind fun ampersand _ => ?_
  cases ampersand with
  | some _ => exact keeps_referenceReceiver
  | none =>
    refine (keeps_eatWord _).bind fun isMut _ => (keeps_eatWord _).bind fun isSelf _ => ?_
    split
    · refine (keeps_whenAtEnd _).bind fun found _ => ?_
      cases found with
      | some receiver => exact keeps_pure trivial
      | none =>
        refine (keeps_expectPunct ":" rfl).bind fun colon hcolon => ?_
        exact (keeps_typeOfRest (placed_of_mem hcolon)).bind fun _ _ => keeps_pure trivial
    · exact keeps_pure trivial

theorem Keeps.lookahead {α : Type} {Q : α → Prop} {reader : Reader α}
    (h : reader.Keeps tokens Q) : (lookahead reader).Keeps tokens Q := by
  intro c hc
  have hread := h c hc
  rw [Reader.lookahead]
  cases hresult : reader c with
  | ok a c' =>
    rw [hresult] at hread
    exact ⟨hread.1, hc⟩
  | error f c' =>
    rw [hresult] at hread
    exact hread

theorem keeps_parameter {attributes : List Attribute}
    (h : ∀ a ∈ attributes, a.Anchored tokens) :
    Keeps tokens (Parameter.Anchored tokens) (parameter attributes) := by
  refine (keeps_takeUntil _).bind fun pattern hpattern => ?_
  cases pattern with
  | nil => exact keeps_fail trivial
  | cons first pattern =>
    refine (keeps_expectPunct ":" rfl).bind fun colon hcolon => ?_
    refine (keeps_typeOfRest (placed_of_mem hcolon)).bind fun type _ => keeps_pure ?_
    exact ⟨hpattern.placed List.mem_cons_self, h⟩

theorem keeps_anyParameter : Keeps tokens (Parameter.Anchored tokens) anyParameter :=
  keeps_attributes.bind fun _ h => keeps_parameter h

theorem keeps_firstParameter :
    Keeps tokens (fun first => ∀ p, first = .inr p → p.Anchored tokens) firstParameter := by
  refine keeps_attributes.bind fun attributes h => keeps_receiver.lookahead.bind fun found _ => ?_
  cases found with
  | some receiver => exact keeps_pure nofun
  | none =>
    refine (keeps_parameter h).bind fun p hp => keeps_pure fun q hq => ?_
    cases hq
    exact hp

theorem Keeps.runOn {α : Type} {Q : α → Prop} {reader : Reader α} (h : reader.Keeps tokens Q)
    {trees : List TokenTree} {anchor : Location} (htrees : DrawnFrom tokens trees)
    (hanchor : Placed tokens (some anchor)) :
    Meets (Failure.Concerns tokens) Q (reader.runOn trees anchor) := by
  have hread := h _ (Cursor.anchored_ofTrees _ htrees fun _ => hanchor)
  rw [Reader.runOn]
  cases hresult : reader (Cursor.ofTrees trees (some anchor)) with
  | ok a c =>
    rw [hresult] at hread
    exact hread.1
  | error f c =>
    rw [hresult] at hread
    exact hread

end Reader

/-! ### Methods -/

/-- The method is placed at one of the tokens, and so are its attributes and parameters. -/
structure Method.Anchored (tokens : List Token) (m : Method) : Prop where
  placed : Placed tokens (some m.place)
  attributes : ∀ a ∈ m.attributes, a.Anchored tokens
  params : ∀ p ∈ m.params, p.Anchored tokens

namespace Method

open Reader

theorem meets_parametersOf {g : Group} (h : DrawnFrom tokens [g.tree]) :
    Meets (Failure.Concerns tokens) (fun read => ∀ p ∈ read.2, p.Anchored tokens)
      (parametersOf g) := by
  obtain ⟨hopener, hinner⟩ := h.group (List.mem_singleton_self _)
  have hchunk : ∀ chunk ∈ TokenTree.splitCommas g.inner, DrawnFrom tokens chunk :=
    fun chunk hmem => hinner.of_subset (TokenTree.sublist_of_mem_splitCommas hmem).subset
  rw [parametersOf]
  cases hsplit : TokenTree.splitCommas g.inner with
  | nil => exact List.forall_mem_nil _
  | cons first others =>
    rw [hsplit] at hchunk
    obtain ⟨hfirst, hothers⟩ := List.forall_mem_cons.1 hchunk
    refine (keeps_firstParameter.runOn hfirst (placed_of_mem hopener)).bind fun first hfirst => ?_
    refine (meets_mapM fun chunk hmem => keeps_anyParameter.runOn (hothers chunk hmem)
      (placed_of_mem hopener)).bind fun others hothers => ?_
    cases first with
    | inl receiver => exact hothers
    | inr p => exact List.forall_mem_cons.2 ⟨hfirst p rfl, hothers⟩

theorem keeps_returnTypeReader {anchor : Location} (h : Placed tokens (some anchor)) :
    Keeps tokens (fun _ => True) (returnTypeReader anchor) := by
  refine (keeps_eat _).bind fun arrow _ => ?_
  cases arrow with
  | none => exact keeps_pure trivial
  | some _ =>
    refine (keeps_takeUntil _).bind fun trees htrees => ?_
    exact (keeps_ofExcept (RustType.meets_ofTrees htrees fun _ => h)).bind fun _ _ =>
      keeps_pure trivial

theorem keeps_bodyReader : Keeps tokens (fun _ => True) bodyReader := by
  refine (keeps_takeUntil _).bind fun _ _ => (keeps_sees _).bind fun atEnd _ => ?_
  split
  · exact keeps_fail trivial
  · exact (keeps_expectGroup _).any

theorem keeps_reader {attributes : List Attribute} (h : ∀ a ∈ attributes, a.Anchored tokens) :
    Keeps tokens (Method.Anchored tokens) (reader attributes) := by
  refine (keeps_takeUntil _).bind fun qualifiers _ => ?_
  refine (keeps_expectIdent (some "fn") rfl).bind fun fn hfn => ?_
  refine (keeps_expectIdent none trivial).bind fun name hname => ?_
  refine keeps_optionalAngleList.bind fun generics _ => ?_
  refine (keeps_expectGroup _).bind fun group hgroup => ?_
  refine (keeps_ofExcept (meets_parametersOf hgroup)).bind fun read hparams => ?_
  refine (keeps_returnTypeReader (placed_of_mem hname)).bind fun returnType _ => ?_
  refine keeps_bodyReader.bind fun body _ => keeps_pure ?_
  exact ⟨placed_of_mem hfn, h, hparams⟩

end Method

/-! ### Impl blocks -/

def ImplItem.Anchored (tokens : List Token) : ImplItem → Prop
  | .method m => m.Anchored tokens
  | .other _ => True

namespace ImplItem

open Reader

theorem keeps_visibility : Keeps tokens (fun _ => True) visibility := by
  refine (keeps_eatWord _).bind fun isPublic _ => ?_
  split
  · refine (keeps_sees _).bind fun isAhead _ => ?_
    split
    · exact keeps_next.bind fun _ _ => keeps_pure trivial
    · exact keeps_pure trivial
  · exact keeps_pure trivial

theorem keeps_reader (trees : List TokenTree) :
    Keeps tokens (ImplItem.Anchored tokens) (reader trees) := by
  refine keeps_attributes.bind fun attributes h => keeps_visibility.bind fun _ _ => ?_
  refine keeps_get fun c hc => ?_
  by_cases hahead : Method.isAhead false c.rest = true
  · rw [if_pos hahead]
    exact (Method.keeps_reader h).bind
      (fun m hm => @keeps_pure tokens _ (ImplItem.Anchored tokens) (.method m) hm) c hc
  · rw [if_neg hahead]
    exact ⟨trivial, hc.skip _⟩

end ImplItem

theorem ImplItems.anchored_ofTrees {trees : List TokenTree} (h : DrawnFrom tokens trees) :
    (∀ m ∈ (ofTrees trees).methods, m.Anchored tokens) ∧
      ∀ f ∈ (ofTrees trees).failures, f.Concerns tokens := by
  fun_induction ofTrees trees with
  | case1 => exact ⟨List.forall_mem_nil _, List.forall_mem_nil _⟩
  | case2 tree rest item c hread _ ih =>
    have hkept := ImplItem.keeps_reader (tree :: rest) _ (Cursor.anchored_ofTrees none h nofun)
    rw [hread] at hkept
    obtain ⟨hmethods, hfailures⟩ := ih (h.of_subset (List.drop_subset _ _))
    cases item with
    | method m => exact ⟨List.forall_mem_cons.2 ⟨hkept.1, hmethods⟩, hfailures⟩
    | other trees => exact ⟨hmethods, hfailures⟩
  | case3 tree rest f c hread _ _ items ih =>
    have hkept := ImplItem.keeps_reader (tree :: rest) _ (Cursor.anchored_ofTrees none h nofun)
    rw [hread] at hkept
    have hbehind := h.of_subset (List.drop_subset (max 1 c.position) _)
    obtain ⟨hmethods, hfailures⟩ :=
      ih (hbehind.of_subset (ImplItem.throughEnd_suffix _).subset)
    exact ⟨hmethods, List.forall_mem_cons.2 ⟨hkept, hfailures⟩⟩

theorem ImplItems.meets_ofBody {body : Group} (h : DrawnFrom tokens [body.tree]) :
    Meets (Failure.Concerns tokens) (fun read => ∀ m ∈ read.1, m.Anchored tokens)
      (ofBody body) := by
  obtain ⟨hmethods, hfailures⟩ := anchored_ofTrees (h.group (List.mem_singleton_self _)).2
  exact meets_refuse hfailures hmethods

/-- The block's type begins with one of the tokens, its arguments consist of them, and its
methods are anchored. -/
structure ImplBlock.Anchored (tokens : List Token) (impl : ImplBlock) : Prop where
  selfType : Placed tokens (impl.selfType.trees.head?.map TokenTree.start)
  markerArgs : ∀ g ∈ impl.markerArgs, DrawnFrom tokens [g.tree]
  methods : ∀ m ∈ impl.methods, m.Anchored tokens

open Reader in
theorem ImplBlock.keeps_reader {start : Location} {marker : Attribute}
    {attributes : List Attribute} (hstart : Placed tokens (some start))
    (hmarker : marker.Anchored tokens) :
    Keeps tokens (ImplBlock.Anchored tokens) (reader start marker attributes) := by
  refine (keeps_eatWord _).bind fun _ _ => (keeps_eatWord _).bind fun isImpl _ => ?_
  dsimp only
  split
  · have hfails := Failure.concerns_single hmarker.placed hmarker.quotes_name
    exact @Keeps.bind tokens _ _ (fun _ => False) _ _ _ (keeps_throw hfails) fun _ h => h.elim
  · refine keeps_optionalAngleList.bind fun generics _ => ?_
    refine (keeps_takeUntil _).bind fun header hheader => ?_
    have hself := hheader.of_subset (TypeFrame.selfTrees_suffix header).subset
    refine (keeps_ofExcept (RustType.meets_ofTrees hself fun _ => hstart)).bind
      fun selfType htype => ?_
    refine (keeps_takeUntil _).bind fun whereClause _ => ?_
    refine (keeps_expectGroup _).bind fun body hbody => ?_
    refine (keeps_ofExcept (ImplItems.meets_ofBody hbody)).bind fun read hmethods => ?_
    exact keeps_pure ⟨htype, hmarker.args, hmethods⟩

namespace Found

theorem drawnFrom_inBraces {tree : TokenTree} {trees : List TokenTree}
    (h : DrawnFrom tokens trees) (htree : tree ∈ trees) : DrawnFrom tokens (inBraces tree) := by
  rw [inBraces]
  split
  · rename_i g hg
    obtain ⟨-, rfl⟩ := TokenTree.group?_eq_some hg
    exact (h.group htree).2
  · exact List.forall_mem_nil _

section
variable {tree : TokenTree} {rest after : List TokenTree} {first marker : Attribute}
  {others : List Attribute} {p : Attribute → Bool}

theorem drawnFrom_after (h : DrawnFrom tokens (tree :: rest))
    (hleading : Attribute.leading (tree :: rest) = (first :: others, after)) :
    DrawnFrom tokens after := by
  have hafter := (Attribute.leading_suffix (tree :: rest)).subset
  rw [hleading] at hafter
  exact h.of_subset hafter

/-- Behind its attributes a marked block is read between the trees. -/
theorem kept_marked (h : DrawnFrom tokens (tree :: rest))
    (hleading : Attribute.leading (tree :: rest) = (first :: others, after))
    (hmarker : (first :: others).find? p = some marker) (attributes : List Attribute) :
    Reader.Kept tokens (ImplBlock.Anchored tokens)
      (ImplBlock.reader first.place marker attributes
        (Cursor.ofTrees after (TokenTree.endPlace none (tree :: rest)))) := by
  have hattributes := Attribute.anchored_leading h
  rw [hleading] at hattributes
  exact ImplBlock.keeps_reader (hattributes first List.mem_cons_self).placed
    (hattributes marker (List.mem_of_find?_eq_some hmarker)) _
    (Cursor.anchored_ofTrees _ (drawnFrom_after h hleading) fun _ => placed_endPlace h nofun)

end

theorem anchored_inTrees (attrName : String) {trees : List TokenTree}
    (h : DrawnFrom tokens trees) :
    (∀ impl ∈ (inTrees attrName trees).impls, impl.Anchored tokens) ∧
      ∀ f ∈ (inTrees attrName trees).failures, f.Concerns tokens := by
  fun_induction inTrees attrName trees with
  | case1 => exact ⟨List.forall_mem_nil _, List.forall_mem_nil _⟩
  | case2 tree rest attributes _ _ _ ihinside ihrest =>
    obtain ⟨himpls, hfailures⟩ := ihinside (drawnFrom_inBraces h List.mem_cons_self)
    obtain ⟨himpls', hfailures'⟩ := ihrest (h.of_subset (List.subset_cons_self _ _))
    exact ⟨List.forall_mem_append.2 ⟨himpls, himpls'⟩,
      List.forall_mem_append.2 ⟨hfailures, hfailures'⟩⟩
  | case3 tree rest first others after hleading _ attributes _ ih =>
    exact ih (drawnFrom_after h hleading)
  | case4 tree rest first others after hleading _ attributes marker hmarker anchor reader impl c
    hread _ ih =>
    have hkept : Reader.Kept tokens _ (reader (Cursor.ofTrees after anchor)) :=
      kept_marked h hleading hmarker _
    rw [hread] at hkept
    obtain ⟨himpls, hfailures⟩ :=
      ih ((drawnFrom_after h hleading).of_subset (List.drop_subset _ _))
    exact ⟨List.forall_mem_cons.2 ⟨hkept.1, himpls⟩, hfailures⟩
  | case5 tree rest first others after hleading _ attributes marker hmarker anchor reader f c
    hread _ ih =>
    have hkept : Reader.Kept tokens _ (reader (Cursor.ofTrees after anchor)) :=
      kept_marked h hleading hmarker _
    rw [hread] at hkept
    obtain ⟨himpls, hfailures⟩ :=
      ih ((drawnFrom_after h hleading).of_subset (ImplItem.throughEnd_suffix _).subset)
    exact ⟨himpls, List.forall_mem_cons.2 ⟨hkept, hfailures⟩⟩

end Found

theorem ImplBlock.concerned_ofSource {source : String} {trees : List TokenTree} (attrName : String)
    (h : TokenTree.ofSource source = .ok trees) :
    Meets (Failure.Concerns (TokenTree.flatten trees))
      (fun impls => ∀ impl ∈ impls, impl.Anchored (TokenTree.flatten trees))
      (ofSource source attrName) := by
  obtain ⟨himpls, hfailures⟩ := Found.anchored_inTrees attrName (drawnFrom_flatten trees)
  rw [ofSource, h]
  exact meets_refuse hfailures himpls

theorem ImplBlock.meets_ofSource {source : String} {trees : List TokenTree} (attrName : String)
    (h : TokenTree.ofSource source = .ok trees) :
    Meets (Failure.PointsInto (TokenTree.flatten trees))
      (fun impls => ∀ impl ∈ impls, impl.Anchored (TokenTree.flatten trees))
      (ofSource source attrName) :=
  (concerned_ofSource attrName h).weaken fun _ => Failure.Concerns.pointsInto

end LuaBindings
