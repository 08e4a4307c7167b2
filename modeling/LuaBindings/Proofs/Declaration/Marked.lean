import LuaBindings.Declaration.Search
import LuaBindings.Proofs.Cursor
import LuaBindings.Proofs.TokenTree.Nesting

/-!
# Marked blocks among their siblings

Every block that a search finds stands at some depth of braces, behind a run of attributes
that no other attribute comes before or after, and its span goes from the hash sign of the
first attribute to the end of its body (`marked_of_mem_inTrees`). This holds behind items
that were given up too.
-/

set_option autoImplicit false

namespace LuaBindings

namespace Attribute

/-- An attribute made of a hash sign and the brackets behind it. -/
def Formed (a : Attribute) : Prop :=
  ∃ hash brackets, hash.isPunct "#" = true ∧ brackets.delimiter = .bracket ∧
    a = ofBrackets hash brackets

def Starts (trees : List TokenTree) : Prop :=
  ∃ (hash : Token) (brackets : Group) (rest : List TokenTree), hash.isPunct "#" = true ∧
    brackets.delimiter = .bracket ∧ trees = .token hash :: brackets.tree :: rest

def Ends (trees : List TokenTree) : Prop :=
  ∃ (front : List TokenTree) (hash : Token) (brackets : Group), hash.isPunct "#" = true ∧
    brackets.delimiter = .bracket ∧ trees = front ++ [.token hash, brackets.tree]

/-- A hash sign at the end of some trees has its brackets at the front of others. -/
def Straddles (before after : List TokenTree) : Prop :=
  ∃ (front : List TokenTree) (hash : Token) (brackets : Group) (rest : List TokenTree),
    hash.isPunct "#" = true ∧ brackets.delimiter = .bracket ∧ before = front ++ [.token hash] ∧
      after = brackets.tree :: rest

/-- The leading attributes make up the front of the trees, and no attribute follows. -/
theorem leading_eq {trees after : List TokenTree} {attributes : List Attribute}
    (h : leading trees = (attributes, after)) :
    trees = attributes.flatMap Attribute.trees ++ after ∧ (∀ a ∈ attributes, a.Formed) ∧
      ¬Starts after := by
  fun_induction leading trees generalizing attributes after with
  | case1 hash brackets rest hash' brackets' hbrackets hhash attributes' after' heq ih =>
    cases h
    obtain ⟨rfl, hformed, hends⟩ := ih heq
    obtain ⟨rfl, hpunct⟩ := TokenTree.token?_eq_some hhash
    obtain ⟨hbracket, rfl⟩ := TokenTree.group?_eq_some hbrackets
    refine ⟨rfl, ?_, hends⟩
    exact List.forall_mem_cons.2 ⟨⟨hash', brackets', hpunct, hbracket, rfl⟩, hformed⟩
  | case2 hash brackets rest hnot =>
    cases h
    refine ⟨rfl, by simp, ?_⟩
    rintro ⟨t, g, rest', hpunct, hbracket, heq⟩
    cases heq
    exact hnot t g (if_pos hpunct) (TokenTree.group?_tree hbracket)
  | case3 trees hshort =>
    cases h
    refine ⟨rfl, by simp, ?_⟩
    rintro ⟨t, g, rest', _, _, rfl⟩
    exact hshort _ _ _ rfl

end Attribute

/-- The part of a list that a search has come to: no attribute ends where another begins,
and none lies across. -/
structure Fresh (before after : List TokenTree) : Prop where
  apart : Attribute.Ends before → ¬Attribute.Starts after
  whole : ¬Attribute.Straddles before after

namespace Fresh

open Attribute

theorem nil (trees : List TokenTree) : Fresh [] trees where
  apart := by
    rintro ⟨front, hash, brackets, _, _, heq⟩
    simp at heq
  whole := by
    rintro ⟨front, hash, brackets, rest, _, _, heq, _⟩
    simp at heq

/-- A tree that begins no attribute is stepped over. -/
theorem step {before rest : List TokenTree} {tree : TokenTree} (h : Fresh before (tree :: rest))
    (hnot : ¬Starts (tree :: rest)) : Fresh (before ++ [tree]) rest where
  apart := by
    rintro ⟨front, hash, brackets, hpunct, hbracket, heq⟩
    have hsplit : before ++ [tree] = (front ++ [.token hash]) ++ [brackets.tree] := by
      rw [heq, List.append_assoc]
      rfl
    obtain ⟨hbefore, htree⟩ := List.append_inj' hsplit rfl
    cases htree
    exact absurd ⟨front, hash, brackets, rest, hpunct, hbracket, hbefore, rfl⟩ h.whole
  whole := by
    rintro ⟨front, hash, brackets, rest', hpunct, hbracket, heq, rfl⟩
    obtain ⟨_, htree⟩ := List.append_inj' heq rfl
    cases htree
    exact hnot ⟨hash, brackets, rest', hpunct, hbracket, rfl⟩

/-- Behind a tree that belongs to no attribute. -/
theorem behind (before rest : List TokenTree) {tree : TokenTree}
    (hhash : tree.isPunct "#" = false) (hbracket : tree.isGroup .bracket = false) :
    Fresh (before ++ [tree]) rest where
  apart := by
    rintro ⟨front, hash, brackets, _, hd, heq⟩
    have hsplit : before ++ [tree] = (front ++ [.token hash]) ++ [brackets.tree] := by
      rw [heq, List.append_assoc]
      rfl
    obtain ⟨_, htree⟩ := List.append_inj' hsplit rfl
    cases htree
    rw [TokenTree.isGroup, TokenTree.group?_tree hd] at hbracket
    cases hbracket
  whole := by
    rintro ⟨front, hash, brackets, rest', hpunct, _, heq, rfl⟩
    obtain ⟨_, htree⟩ := List.append_inj' heq rfl
    cases htree
    simp [TokenTree.isPunct, TokenTree.isToken, TokenTree.token?, hpunct] at hhash

/-- A run of attributes is stepped over as a whole. -/
theorem attributes (before after : List TokenTree) {attributes : List Attribute}
    (hne : attributes ≠ []) (hformed : ∀ a ∈ attributes, a.Formed) (hnot : ¬Starts after) :
    Fresh (before ++ attributes.flatMap Attribute.trees) after where
  apart _ := hnot
  whole := by
    rintro ⟨front, hash, brackets, rest, _, _, heq, _⟩
    obtain ⟨others, last, rfl⟩ := (List.eq_nil_or_concat attributes).resolve_left hne
    obtain ⟨hash', brackets', _, _, rfl⟩ := hformed last (by simp)
    have hlast := congrArg List.getLast? heq
    simp [ofBrackets, Group.tree] at hlast

theorem atEnd (before : List TokenTree) : Fresh before [] where
  apart := by
    rintro _ ⟨hash, brackets, rest, _, _, heq⟩
    cases heq
  whole := by
    rintro ⟨front, hash, brackets, rest, _, _, _, heq⟩
    cases heq

end Fresh

/-- A block that is read ends with its body, which is the last tree taken. -/
theorem ImplBlock.reader_eq_ok {start : Location} {marker : Attribute}
    {attributes : List Attribute} {c c' : Cursor} {impl : ImplBlock}
    (h : ImplBlock.reader start marker attributes c = .ok impl c') :
    ∃ head body, c.Takes (head ++ [Group.tree body]) c' ∧ body.delimiter = .brace ∧
      ImplItems.ofBody body = .ok (impl.methods, impl.otherItems) ∧
      impl.start = start ∧ impl.stop = body.closer.stop := by
  unfold reader at h
  obtain ⟨_, c₁, hunsafe, h⟩ := Reader.bind_eq_ok h
  obtain ⟨isImpl, c₂, himpl, h⟩ := Reader.bind_eq_ok h
  obtain ⟨_, h₁⟩ := Reader.advances_eatWord _ _ _ _ hunsafe
  obtain ⟨_, h₂⟩ := Reader.advances_eatWord _ _ _ _ himpl
  cases isImpl with
  | false =>
    obtain ⟨_, _, hthrow, _⟩ := Reader.bind_eq_ok h
    cases hthrow
  | true =>
    rw [if_neg (by decide)] at h
    obtain ⟨_, c₃, hgenerics, h⟩ := Reader.bind_eq_ok h
    obtain ⟨_, c₄, hheader, h⟩ := Reader.bind_eq_ok h
    obtain ⟨_, c₅, htype, h⟩ := Reader.bind_eq_ok h
    obtain ⟨_, c₆, hwhere, h⟩ := Reader.bind_eq_ok h
    obtain ⟨body, c₇, hbody, h⟩ := Reader.bind_eq_ok h
    obtain ⟨⟨methods, others⟩, c₈, hitems, h⟩ := Reader.bind_eq_ok h
    obtain ⟨_, h₃⟩ := Reader.advances_optionalAngleList _ _ _ hgenerics
    obtain ⟨_, h₄⟩ := Reader.advances_takeUntil _ _ _ _ hheader
    obtain ⟨_, h₅⟩ := Reader.advances_ofExcept _ _ _ _ htype
    obtain ⟨_, h₆⟩ := Reader.advances_takeUntil _ _ _ _ hwhere
    obtain ⟨hbrace, h₇⟩ := Reader.expectGroup_eq_ok hbody
    cases h
    obtain ⟨hresult, rfl⟩ := Reader.ofExcept_eq_ok hitems
    have hhead := ((((h₁.trans h₂).trans h₃).trans h₄).trans h₅).trans h₆
    exact ⟨_, body, hhead.trans h₇, hbrace, hresult, rfl, rfl⟩

/-- An item that is given up ends with braces or a semicolon, or with the list. -/
theorem ImplItem.throughEnd_eq (trees : List TokenTree) :
    throughEnd trees = [] ∨ ∃ front last,
      trees = front ++ last :: throughEnd trees ∧
        (last.isGroup .brace || last.isPunct ";") = true := by
  have hjoin := List.takeWhile_append_dropWhile (l := trees)
    (p := fun tree => !(tree.isGroup .brace || tree.isPunct ";"))
  have hend := List.head?_dropWhile_not
    (fun tree : TokenTree => !(tree.isGroup .brace || tree.isPunct ";")) trees
  unfold throughEnd
  split
  · exact .inl rfl
  · rename_i last rest heq
    rw [heq] at hjoin hend
    exact .inr ⟨_, last, hjoin.symm, by simpa [or_iff_not_imp_left] using hend⟩

theorem Fresh.throughEnd (before trees : List TokenTree) :
    ∃ passed, trees = passed ++ ImplItem.throughEnd trees ∧
      Fresh (before ++ passed) (ImplItem.throughEnd trees) := by
  rcases ImplItem.throughEnd_eq trees with hnil | ⟨front, last, heq, hlast⟩
  · refine ⟨trees, ?_, ?_⟩
    · rw [hnil, List.append_nil]
    · rw [hnil]
      exact .atEnd _
  · refine ⟨front ++ [last], by simpa using heq, ?_⟩
    rw [← List.append_assoc]
    cases last with
    | token t =>
      have htext : t.text = ";" := by
        simp [TokenTree.isGroup, TokenTree.group?, TokenTree.isPunct, TokenTree.isToken,
          TokenTree.token?, Token.isPunct] at hlast
        exact hlast.2
      refine .behind _ _ ?_ rfl
      simp [TokenTree.isPunct, TokenTree.isToken, TokenTree.token?, Token.isPunct, htext]
    | group d opener inner closer =>
      refine .behind _ _ rfl ?_
      simp [TokenTree.isGroup, TokenTree.group?, TokenTree.isPunct, TokenTree.isToken,
        TokenTree.token?] at hlast ⊢
      simp [hlast]

theorem Found.inBraces_cases (tree : TokenTree) : inBraces tree = [] ∨
    ∃ g : Group, g.delimiter = .brace ∧ tree = g.tree ∧ inBraces tree = g.inner := by
  unfold inBraces
  split
  · rename_i g hg
    obtain ⟨hd, htree⟩ := TokenTree.group?_eq_some hg
    exact .inr ⟨g, hd, htree, rfl⟩
  · exact .inl rfl

theorem Found.inTrees_nil (attrName : String) : inTrees attrName [] = empty := by
  rw [inTrees]

/-- Among its siblings a block stands behind a run of attributes, one of which has the
given name, and which no attribute comes before or after. The block starts with the run
and ends with its body, from which its items are read. -/
inductive MarkedIn (attrName : String) : List TokenTree → ImplBlock → Prop
  | intro {before head after : List TokenTree} {first : Attribute} {others : List Attribute}
    {body : Group} {impl : ImplBlock} :
    (∀ a ∈ first :: others, a.Formed) → (∃ a ∈ first :: others, a.name = attrName) →
    ¬Attribute.Ends before → ¬Attribute.Starts (head ++ body.tree :: after) →
    body.delimiter = .brace →
    ImplItems.ofBody body = .ok (impl.methods, impl.otherItems) →
    impl.start = first.place → impl.stop = body.closer.stop →
    MarkedIn attrName (before ++ ((first :: others).flatMap Attribute.trees ++
      (head ++ body.tree :: after))) impl

/-- What a search comes to where attributes lead. -/
theorem Fresh.leading {before trees after : List TokenTree} {first : Attribute}
    {others : List Attribute} (h : Fresh before trees)
    (hleading : Attribute.leading trees = (first :: others, after)) :
    trees = (first :: others).flatMap Attribute.trees ++ after ∧
      (∀ a ∈ first :: others, a.Formed) ∧ ¬Attribute.Ends before ∧ ¬Attribute.Starts after ∧
      Fresh (before ++ (first :: others).flatMap Attribute.trees) after := by
  obtain ⟨htrees, hformed, hnot⟩ := Attribute.leading_eq hleading
  have hends : ¬Attribute.Ends before := by
    intro hends
    refine h.apart hends ?_
    obtain ⟨hash, brackets, hpunct, hbracket, hfirst⟩ := hformed first List.mem_cons_self
    refine ⟨hash, brackets, others.flatMap Attribute.trees ++ after, hpunct, hbracket, ?_⟩
    rw [htrees, List.flatMap_cons, hfirst]
    rfl
  exact ⟨htrees, hformed, hends, hnot, .attributes before after (by simp) hformed hnot⟩

/-- The trees that a block takes behind its attributes. -/
theorem ImplBlock.taken_of_reader {start : Location} {marker : Attribute}
    {attributes : List Attribute} {trees : List TokenTree} {anchor : Option Location} {c : Cursor}
    {impl : ImplBlock}
    (h : ImplBlock.reader start marker attributes (Cursor.ofTrees trees anchor) = .ok impl c) :
    ∃ head body, trees = head ++ Group.tree body :: trees.drop c.position ∧
      body.delimiter = .brace ∧ ImplItems.ofBody body = .ok (impl.methods, impl.otherItems) ∧
      impl.start = start ∧ impl.stop = body.closer.stop := by
  obtain ⟨head, body, htakes, hbrace, hitems, hstart, hstop⟩ := ImplBlock.reader_eq_ok h
  refine ⟨head, body, ?_, hbrace, hitems, hstart, hstop⟩
  have hrest : trees = (head ++ [body.tree]) ++ c.rest := htakes.rest_eq
  have hdrop : trees.drop c.position = c.rest := by
    rw [htakes.position_eq, hrest, List.drop_left]
  rw [hdrop, hrest]
  simp

theorem marked_of_mem_inTrees {attrName : String} {whole before trees : List TokenTree}
    (hlevel : TokenTree.Level (· = .brace) whole (before ++ trees)) (hfresh : Fresh before trees) :
    ∀ impl ∈ (Found.inTrees attrName trees).impls,
      ∃ siblings, TokenTree.Level (· = .brace) whole siblings ∧
        MarkedIn attrName siblings impl := by
  -- the search is followed with the trees before the place that it has come to
  fun_induction Found.inTrees attrName trees generalizing before with
  | case1 => simp [Found.empty]
  | case2 tree rest after h _ _ ihinner ihrest =>
    obtain ⟨hafter, _, hnot⟩ := Attribute.leading_eq h
    rw [List.flatMap_nil, List.nil_append] at hafter
    rw [← hafter] at hnot
    refine fun impl himpl => (List.mem_append.1 himpl).elim (fun hin => ?_) (fun hin => ?_)
    · rcases Found.inBraces_cases tree with hnil | ⟨g, hbrace, rfl, hinner⟩
      · rw [hnil, Found.inTrees_nil] at hin
        cases hin
      · rw [hinner] at ihinner hin
        have hlevel' : TokenTree.Level (· = .brace) whole ([] ++ g.inner) := hlevel.inside hbrace
        exact ihinner hlevel' (.nil _) impl hin
    · refine ihrest ?_ (hfresh.step hnot) impl hin
      rwa [List.append_assoc]
  | case3 tree rest first others after h _ attributes hnone =>
    rename_i ih
    obtain ⟨htrees, _, _, _, hfresh'⟩ := hfresh.leading h
    refine ih ?_ hfresh'
    rwa [List.append_assoc, ← htrees]
  | case4 tree rest first others after h _ attributes marker hsome anchor reader impl c hread =>
    rename_i ih
    obtain ⟨htrees, hformed, hends, hnot, _⟩ := hfresh.leading h
    obtain ⟨head, body, hafter, hbrace, hitems, hstart, hstop⟩ := ImplBlock.taken_of_reader hread
    have hmarker : ∃ a ∈ first :: others, a.name = attrName :=
      ⟨marker, List.mem_of_find?_eq_some hsome, by simpa using List.find?_some hsome⟩
    rw [htrees] at hlevel
    refine List.forall_mem_cons.2 ⟨⟨_, hlevel, ?_⟩, ?_⟩
    · rw [hafter] at hnot ⊢
      exact .intro hformed hmarker hends hnot hbrace hitems hstart hstop
    · rw [hafter] at hlevel
      have hlevel' : TokenTree.Level (· = .brace) whole
          ((before ++ (first :: others).flatMap Attribute.trees ++ head ++ [body.tree]) ++
            after.drop c.position) := by
        simpa using hlevel
      refine ih hlevel' (.behind _ _ rfl ?_)
      simp [TokenTree.isGroup, Group.tree, TokenTree.group?, hbrace]
  | case5 tree rest first others after h _ attributes marker hsome anchor reader f c hread =>
    rename_i ih
    obtain ⟨htrees, _, _, _, _⟩ := hfresh.leading h
    obtain ⟨passed, hafter, hfresh'⟩ := Fresh.throughEnd
      (before ++ (first :: others).flatMap Attribute.trees) after
    refine fun impl himpl => ih ?_ hfresh' impl himpl
    rw [List.append_assoc, ← hafter, List.append_assoc, ← htrees]
    exact hlevel

/-- The blocks of a source are those that a search of its trees finds, unless it fails. -/
theorem ImplBlock.ofSource_eq_ok_iff {source attrName : String} {impls : List ImplBlock} :
    ofSource source attrName = .ok impls ↔
      ∃ trees, TokenTree.ofText source.toList = .ok trees ∧
        (Found.inTrees attrName trees).failures = [] ∧
        impls = (Found.inTrees attrName trees).impls := by
  unfold ofSource TokenTree.ofSource
  cases htext : TokenTree.ofText source.toList with
  | error d => exact iff_of_false (by rintro ⟨⟩) (by rintro ⟨_, ⟨⟩, -⟩)
  | ok trees =>
    constructor
    · intro h
      obtain ⟨hnone, rfl⟩ := Failure.refuse_eq_ok h
      exact ⟨trees, rfl, hnone, rfl⟩
    · rintro ⟨_, ⟨⟩, hnone, rfl⟩
      change Failure.refuse (Found.inTrees attrName trees).failures _ = _
      rw [hnone]
      rfl

end LuaBindings
