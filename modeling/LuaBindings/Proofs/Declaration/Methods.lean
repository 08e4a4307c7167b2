import LuaBindings.Proofs.Declaration.Parameters

/-!
# Methods read what they are written with

A method is taken from the front of the trees up to the end of its body, whatever
follows. Its qualifiers end at `fn`, its return type at the where clause or the body, and
the where clause at the body.
-/

set_option autoImplicit false

namespace LuaBindings

open TokenTree (maybe Whole Balanced splitCommas)

/-! ### Generic parameters -/

theorem CommaList.balanced_trees {α : Type} {f : α → List TokenTree} (hwhole : ∀ a, Whole (f a))
    (list : CommaList α) : Balanced (list.trees f) := by
  induction list with
  | nil => exact .nil
  | last a => exact (hwhole a).balanced
  | cons a comma rest ih =>
    have hcomma := TokenTree.isPunct_mark comma
    exact (hwhole a).balanced.append (.plain (TokenTree.isPunct_eq_false hcomma (by decide))
      (TokenTree.isPunct_eq_false hcomma (by decide)) ih)

/-- An empty last chunk is left out, but nothing is read of an empty chunk. -/
theorem CommaList.filterMap_splitCommas {α β : Type} {f : α → List TokenTree}
    (hwhole : ∀ a, Whole (f a)) {g : List TokenTree → Option β} (hg : g [] = none)
    (list : CommaList α) :
    (splitCommas (list.trees f)).filterMap g = list.toList.filterMap fun a => g (f a) := by
  induction list with
  | nil => rfl
  | last a =>
    by_cases hempty : f a = []
    · simp [trees, toList, hempty, hg, TokenTree.splitCommas_nil]
    · rw [trees, (hwhole a).splitCommas_self hempty]
      rfl
  | cons a comma rest ih =>
    rw [trees, (hwhole a).splitCommas_comma (TokenTree.isPunct_mark comma), toList,
      List.filterMap_cons, List.filterMap_cons, ih]

namespace GenericsSyntax

theorem lifetime?_eq (trees : List TokenTree) :
    (trees.head?.bind (TokenTree.token? (·.kind == .lifetime))).map Token.text =
      lifetime? trees := by
  match trees with
  | [] => rfl
  | .group .. :: _ => rfl
  | .token t :: _ => by_cases h : t.kind = .lifetime <;> simp [lifetime?, TokenTree.token?, h]

theorem genericLifetimes_trees (g : GenericsSyntax) :
    TokenTree.genericLifetimes g.trees = g.lifetimes := by
  rw [TokenTree.genericLifetimes, trees, TokenTree.angleInner_brackets]
  simp only [lifetime?_eq]
  exact CommaList.filterMap_splitCommas Subtype.property rfl g.params

theorem yields (g : GenericsSyntax) (rest : List TokenTree) :
    Reader.angleList.Yields g.trees rest g.trees :=
  Reader.yields_angleList (CommaList.balanced_trees Subtype.property g.params) g.opening g.closing
    rest

end GenericsSyntax

/-! ### Visibility and qualifiers -/

open Reader

namespace VisibilitySyntax

def EndsBefore (rest : List TokenTree) : VisibilitySyntax → Prop
  | inherited => rest.head?.any (·.isIdent "pub") = false
  | pub _ => rest.head?.any (·.isGroup .paren) = false
  | restricted .. => True

theorem yields (v : VisibilitySyntax) {rest : List TokenTree} (h : v.EndsBefore rest) :
    ImplItem.visibility.Yields v.trees rest () := by
  cases v with
  | inherited => exact .before (yields_eatWord_false (head?_token?_eq_none h)) (yields_pure _ _)
  | pub word =>
    have hparen : rest.head?.any (·.isGroup .paren) = false := h
    refine Yields.bind (yields_eatWord word _) (.before (yields_sees _ _) ?_)
    rw [List.nil_append, hparen]
    exact yields_pure _ _
  | restricted word opener inner closer =>
    refine Yields.bind (yields_eatWord word _) (.before (yields_sees _ _) ?_)
    exact .after (yields_next _ rest) (yields_pure _ _)

end VisibilitySyntax

namespace QualifierSyntax

theorem isQualifier (q : QualifierSyntax) : (TokenTree.token q.word.1).isToken
    (fun t => t.kind == .ident && Method.qualifiers.contains t.text) = true := by
  simp [TokenTree.isToken, TokenTree.token?, q.word.2.1, q.word.2.2]

theorem word_ne {name : String} (q : QualifierSyntax) (h : name ∉ Method.qualifiers) :
    (TokenTree.token q.word.1).isIdent name = false := by
  rw [TokenTree.isIdent_token, Bool.eq_false_iff]
  intro hname
  rw [← Token.Word.text_eq ⟨_, hname⟩] at h
  exact h q.word.2.2

theorem isIdent_string {name : String} {t : Token} (h : t.kind.isString = true) :
    (TokenTree.token t).isIdent name = false := by
  rw [TokenTree.isIdent_token, Bool.eq_false_iff]
  intro hname
  rw [Token.Word.kind_eq ⟨t, hname⟩] at h
  cases h

/-- A word that is no qualifier is not among qualifiers. -/
theorem isIdent_trees {name : String} (h : name ∉ Method.qualifiers)
    (qualifiers : List QualifierSyntax) :
    ∀ tree ∈ qualifiers.flatMap trees, tree.isIdent name = false := by
  intro tree htree
  obtain ⟨q, _, htree⟩ := List.mem_flatMap.1 htree
  rcases List.mem_cons.1 htree with rfl | htree
  · exact q.word_ne h
  · cases habi : q.abi with
    | none => simp [habi, maybe] at htree
    | some s =>
      simp only [habi, maybe, Option.map_some, Option.toList_some, List.mem_singleton] at htree
      rw [htree]
      exact isIdent_string s.2

/-- Behind qualifiers `fn` is seen to be ahead. -/
theorem isAhead_trees (qualifiers : List QualifierSyntax) (fn : Token.Word "fn")
    (rest : List TokenTree) (afterQualifier : Bool) :
    Method.isAhead afterQualifier (qualifiers.flatMap trees ++ .token fn.1 :: rest) = true := by
  induction qualifiers generalizing afterQualifier with
  | nil =>
    have hfn : (TokenTree.token fn.1).isIdent "fn" = true := by rw [TokenTree.isIdent_token]; exact fn.2
    rw [List.flatMap_nil, List.nil_append, Method.isAhead, if_pos hfn]
  | cons q qualifiers ih =>
    rw [List.flatMap_cons, trees, List.append_assoc, List.cons_append, Method.isAhead,
      if_neg (by simp [q.word_ne (show "fn" ∉ Method.qualifiers by decide)]), if_pos q.isQualifier]
    cases q.abi with
    | none => exact ih true
    | some s =>
      have hkind : s.1.kind ≠ .ident := fun h => by
        have hs := s.2
        rw [h] at hs
        cases hs
      change Method.isAhead true (.token s.1 :: (qualifiers.flatMap trees ++ _)) = true
      rw [Method.isAhead, if_neg (by simp [isIdent_string s.2]),
        if_neg (by simp [TokenTree.isToken, TokenTree.token?, hkind]),
        if_pos ⟨rfl, by simp [TokenTree.isToken, TokenTree.token?, s.2]⟩, ih false]

theorem any_async (qualifiers : List QualifierSyntax) :
    (qualifiers.flatMap trees).any (·.isIdent "async") =
      qualifiers.any (·.word.1.text == "async") := by
  rw [List.any_flatMap]
  refine congrArg qualifiers.any (funext fun q => ?_)
  have hword : (TokenTree.token q.word.1).isIdent "async" = (q.word.1.text == "async") := by
    rw [TokenTree.isIdent_token, Token.isIdent, q.word.2.1]
    rfl
  cases habi : q.abi with
  | none => simp [trees, habi, maybe, hword]
  | some s => simp [trees, habi, maybe, hword, isIdent_string s.2]

end QualifierSyntax

/-! ### Methods -/

theorem yields_optionalAngleList (generics : Option GenericsSyntax) {rest : List TokenTree}
    (hrest : rest.head?.any (·.isPunct "<") = false) :
    optionalAngleList.Yields ((generics.map GenericsSyntax.trees).getD []) rest
      ((generics.map GenericsSyntax.trees).getD []) := by
  cases generics with
  | none =>
    refine .before (yields_sees _ _) ?_
    rw [Option.map_none, Option.getD_none, List.nil_append, hrest]
    exact yields_pure _ _
  | some g =>
    refine .before (yields_sees _ _) ?_
    have hopening : (g.trees ++ rest).head?.any (·.isPunct "<") = true :=
      TokenTree.isPunct_mark g.opening
    rw [Option.map_some, Option.getD_some, hopening]
    exact g.yields rest

/-- Behind a return type comes a where clause or the body, and either ends it. -/
theorem endsReturnType_clause (clause : Option ClauseSyntax) {body : Group}
    (hbody : body.delimiter = .brace) (rest : List TokenTree) :
    ∃ tree more, (clause.map ClauseSyntax.trees).getD [] ++ body.tree :: rest = tree :: more ∧
      Method.endsReturnType tree = true ∧ tree.isPunct "->" = false := by
  cases clause with
  | none =>
    refine ⟨body.tree, rest, rfl, ?_, rfl⟩
    rw [Method.endsReturnType, TokenTree.isGroup, TokenTree.group?_tree hbody]
    rfl
  | some c =>
    refine ⟨.token c.word.1, c.predicates ++ body.tree :: rest, rfl, ?_, ?_⟩
    · rw [Method.endsReturnType, TokenTree.isIdent_token, c.word.2, Bool.or_true, Bool.true_or]
    · exact TokenTree.isPunct_eq_false_of_kind (by rw [c.word.kind_eq]; decide) _

theorem yields_returnTypeReader (returns : Option ReturnSyntax) (clause : Option ClauseSyntax)
    (anchor : Location) {body : Group} (hbody : body.delimiter = .brace) (rest : List TokenTree) :
    (Method.returnTypeReader anchor).Yields ((returns.map ReturnSyntax.trees).getD [])
      ((clause.map ClauseSyntax.trees).getD [] ++ body.tree :: rest)
      (returns.map (·.type.type)) := by
  obtain ⟨tree, more, heq, hends, harrow⟩ := endsReturnType_clause clause hbody rest
  rw [heq]
  cases returns with
  | none => exact .before (yields_eat_none (head?_token?_eq_none harrow)) (yields_pure _ _)
  | some r =>
    have htrees : (takeUntil Method.endsReturnType).Yields r.type.trees (tree :: more)
        r.type.trees := by
      refine yields_takeUntil (fun t ht => ?_) (by simp [hends])
      obtain ⟨hbrace, hword, hmark⟩ := r.inside t ht
      rw [Method.endsReturnType, hbrace, hword, hmark]
      rfl
    refine Yields.bind (yields_eat r.arrow.2 _) ?_
    exact .after htrees (.before (yields_ofExcept (r.type.reads_at _) _) (yields_pure _ _))

theorem yields_bodyReader (clause : Option ClauseSyntax) {body : Group}
    (hbody : body.delimiter = .brace) (rest : List TokenTree) :
    Method.bodyReader.Yields ((clause.map ClauseSyntax.trees).getD [] ++ [body.tree]) rest
      body := by
  have hends : Method.endsClause body.tree = true := by
    rw [Method.endsClause, TokenTree.isGroup, TokenTree.group?_tree hbody]
    rfl
  have hclause : (takeUntil Method.endsClause).Yields ((clause.map ClauseSyntax.trees).getD [])
      ([body.tree] ++ rest) ((clause.map ClauseSyntax.trees).getD []) := by
    refine yields_takeUntil (fun tree htree => ?_) (by simp [hends])
    cases clause with
    | none => cases htree
    | some c =>
      rcases List.mem_cons.1 htree with rfl | htree
      · rw [Method.endsClause,
          TokenTree.isPunct_eq_false_of_kind (by rw [c.word.kind_eq]; decide)]
        rfl
      · rw [Method.endsClause, (c.inside tree htree).1, (c.inside tree htree).2]
        rfl
  refine .bind hclause (.before (yields_sees _ _) ?_)
  have hgroup := yields_expectGroup body rest
  rw [hbody] at hgroup
  exact hgroup

namespace MethodSyntax

variable (m : MethodSyntax)

theorem genericLifetimes_trees :
    TokenTree.genericLifetimes m.genericTrees =
      (m.generics.map GenericsSyntax.lifetimes).getD [] := by
  rw [genericTrees]
  cases m.generics with
  | none => rfl
  | some g => exact g.genericLifetimes_trees

theorem yields_reader (rest : List TokenTree) :
    (Method.reader (m.attributes.map AttributeSyntax.value)).Yields m.core rest m.method := by
  have hqualifiers : (takeUntil (·.isIdent "fn")).Yields
      (m.qualifiers.flatMap QualifierSyntax.trees)
      (.token m.fn.1 :: .token m.name.1 ::
        (m.genericTrees ++ .group .paren m.opener m.params.trees m.closer ::
          (m.returnTrees ++ (m.clauseTrees ++ [m.bodyGroup.tree]))) ++ rest)
      (m.qualifiers.flatMap QualifierSyntax.trees) :=
    yields_takeUntil (QualifierSyntax.isIdent_trees (by decide) m.qualifiers)
      (by simp [TokenTree.isIdent_token, m.fn.2])
  have hparams := m.params.parametersOf_group m.opener m.closer
  have hgenerics : ∀ rest, rest.head?.any (·.isPunct "<") = false →
      optionalAngleList.Yields m.genericTrees rest m.genericTrees :=
    fun _ => yields_optionalAngleList m.generics
  have hbrace : m.bodyGroup.delimiter = .brace := rfl
  have hreturns := yields_returnTypeReader m.returns m.clause m.name.1.start hbrace rest
  rw [← List.singleton_append, ← List.append_assoc] at hreturns
  refine .bind hqualifiers ?_
  refine Yields.bind (yields_expectWord m.fn _) ?_
  refine Yields.bind (yields_expectName m.name _) ?_
  refine .bind (hgenerics _ rfl) ?_
  refine Yields.bind (yields_expectGroup ⟨.paren, m.opener, m.params.trees, m.closer⟩ _) ?_
  refine .before (yields_ofExcept hparams _) ?_
  refine .bind hreturns ?_
  refine .after (yields_bodyReader m.clause hbrace rest) ?_
  rw [m.genericLifetimes_trees, QualifierSyntax.any_async]
  exact yields_pure _ _

theorem core_eq : ∃ t more, m.core = .token t :: more ∧ t.kind = .ident ∧ t.text ≠ "pub" := by
  rw [core]
  cases m.qualifiers with
  | nil =>
    refine ⟨m.fn.1, _, rfl, m.fn.kind_eq, ?_⟩
    rw [m.fn.text_eq]
    decide
  | cons q qualifiers =>
    refine ⟨q.word.1, _, rfl, q.word.2.1, fun h => ?_⟩
    have hmem := q.word.2.2
    rw [h] at hmem
    exact absurd hmem (by decide)

theorem isAhead_core (rest : List TokenTree) : Method.isAhead false (m.core ++ rest) = true := by
  rw [core, List.append_assoc]
  exact QualifierSyntax.isAhead_trees m.qualifiers m.fn _ false

theorem yields (trees rest : List TokenTree) :
    (ImplItem.reader trees).Yields m.trees rest (.method m.method) := by
  obtain ⟨t, more, hcore, hkind, htext⟩ := m.core_eq
  have hends : m.visibility.EndsBefore (m.core ++ rest) := by
    rw [hcore]
    cases m.visibility with
    | inherited => simp [VisibilitySyntax.EndsBefore, TokenTree.isIdent_token, Token.isIdent, htext]
    | pub word => rfl
    | restricted => trivial
  have hleading : Attribute.leading (m.visibility.trees ++ m.core ++ rest) =
      ([], m.visibility.trees ++ m.core ++ rest) := by
    refine Attribute.leading_eq_nil ?_
    cases m.visibility with
    | inherited =>
      rw [hcore]
      exact TokenTree.isPunct_eq_false_of_kind (by rw [hkind]; decide) _
    | pub word => exact TokenTree.isPunct_eq_false_of_kind (by rw [word.kind_eq]; decide) _
    | restricted word => exact TokenTree.isPunct_eq_false_of_kind (by rw [word.kind_eq]; decide) _
  refine .bind (AttributeSyntax.yields m.attributes hleading) ?_
  refine .bind (m.visibility.yields hends) fun past anchor => ?_
  let c : Cursor := ⟨past, m.core ++ rest, anchor⟩
  change (get >>= _ : Reader ImplItem) c = _
  rw [bind_of_ok (show (get : Reader Cursor) c = .ok c c from rfl), if_pos (m.isAhead_core rest)]
  have hmethod : (do return ImplItem.method (← Method.reader (m.attributes.map _)) :
      Reader ImplItem).Yields m.core rest (.method m.method) :=
    .after (m.yields_reader rest) (yields_pure _ _)
  exact hmethod past anchor

end MethodSyntax

end LuaBindings
