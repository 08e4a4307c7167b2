import LuaBindings.Proofs.Declaration.Syntax
import LuaBindings.Proofs.Yields

/-!
# Parameter lists read what they are written with

Attributes, receivers and parameters yield what they stand for. The receiver is tried
on the first chunk of a list; on a parameter it finds none, for the parameter's colon
is still to come where a receiver would end.
-/

set_option autoImplicit false

namespace LuaBindings

open TokenTree (maybe Whole splitCommas)

/-! ### Lists with commas -/

theorem CommaList.splitCommas_trees {α : Type} {f : α → List TokenTree}
    (hwhole : ∀ a, Whole (f a)) (hne : ∀ a, f a ≠ []) (list : CommaList α) :
    splitCommas (list.trees f) = list.toList.map f := by
  induction list with
  | nil => rfl
  | last a => exact (hwhole a).splitCommas_self (hne a)
  | cons a comma rest ih =>
    rw [trees, (hwhole a).splitCommas_comma (TokenTree.isPunct_mark comma), ih]
    rfl

/-! ### Attributes -/

theorem AttributeSyntax.leading_cons (a : AttributeSyntax) (rest : List TokenTree) :
    Attribute.leading (a.trees ++ rest) =
      (a.value :: (Attribute.leading rest).1, (Attribute.leading rest).2) := by
  have hhash := TokenTree.token?_token (·.isPunct "#") a.hash.1 a.hash.2
  change Attribute.leading (.token a.hash.1 :: a.brackets.tree :: rest) = _
  rw [Attribute.leading, hhash]
  rfl

/-- Trees that begin with no hash sign begin with no attribute. -/
theorem Attribute.leading_eq_nil {trees : List TokenTree}
    (h : trees.head?.any (·.isPunct "#") = false) : leading trees = ([], trees) := by
  match trees with
  | [] => rfl
  | [tree] => rfl
  | hash :: brackets :: rest =>
    have hhash : hash.token? (·.isPunct "#") = none := by
      simpa [TokenTree.isPunct, TokenTree.isToken] using h
    rw [leading, hhash]

theorem AttributeSyntax.leading_flatMap (attributes : List AttributeSyntax)
    {rest : List TokenTree} (h : Attribute.leading rest = ([], rest)) :
    Attribute.leading (attributes.flatMap trees ++ rest) = (attributes.map value, rest) := by
  induction attributes with
  | nil => exact h
  | cons a attributes ih => rw [List.flatMap_cons, List.append_assoc, leading_cons, ih]; rfl

theorem AttributeSyntax.yields (attributes : List AttributeSyntax) {rest : List TokenTree}
    (h : Attribute.leading rest = ([], rest)) :
    Reader.attributes.Yields (attributes.flatMap trees) rest (attributes.map value) := by
  intro past anchor
  have hlength : (attributes.flatMap trees).length = 2 * (attributes.map value).length := by
    rw [List.length_flatMap, List.length_map]
    simp [trees, List.map_const', Nat.mul_comm]
  rw [Reader.attributes, leading_flatMap attributes h, ← hlength, Cursor.skip_append]

theorem AttributeSyntax.whole (attributes : List AttributeSyntax) :
    Whole (attributes.flatMap trees) := by
  induction attributes with
  | nil => exact .nil
  | cons a attributes ih =>
    exact (TokenTree.Inert.of_mark a.hash (by decide)).cons_whole
      ((TokenTree.Inert.of_group _ _ _ _).cons_whole ih)

/-! ### Types -/

/-- Trees that are accepted as a type are accepted at any anchor. -/
theorem ReadableType.reads_at (t : ReadableType) (anchor : Option Location) :
    RustType.ofTrees t.trees anchor = .ok t.type := by
  have hreads := t.reads
  cases htrees : t.trees with
  | nil =>
    rw [htrees, RustType.ofTrees] at hreads
    cases hreads
  | cons first rest =>
    rw [htrees] at hreads
    rw [← hreads, RustType.ofTrees, RustType.ofTrees]

theorem ReadableType.yields (t : ReadableType) (anchor : Location) :
    (Reader.typeOfRest anchor).Yields t.trees [] t.type :=
  .after (Reader.yields_rest _) (Reader.yields_ofExcept (t.reads_at _) _)

/-! ### Receivers -/

/-- A word is no other word. -/
theorem Token.Word.token?_ne {name other : String} (w : Token.Word name) (h : name ≠ other) :
    (TokenTree.token w.1).token? (·.isIdent other) = none := by
  simp [TokenTree.token?, Token.isIdent, Token.Word.text_eq w, h]

/-- A word is no punctuation mark. -/
theorem Token.Word.token?_punct {name : String} (w : Token.Word name) (text : String) :
    (TokenTree.token w.1).token? (·.isPunct text) = none := by
  simp [TokenTree.token?, Token.isPunct, Token.Word.kind_eq w]

theorem Token.Word.token?_lifetime {name : String} (w : Token.Word name) :
    (TokenTree.token w.1).token? (·.kind == .lifetime) = none := by
  simp [TokenTree.token?, Token.Word.kind_eq w]

theorem Token.Word.head?_maybe {name : String} {p : Token → Bool} (w : Option (Token.Word name))
    {rest : List TokenTree} (hw : ∀ w : Token.Word name, (TokenTree.token w.1).token? p = none)
    (hrest : rest.head?.bind (TokenTree.token? p) = none) :
    (maybe w ++ rest).head?.bind (TokenTree.token? p) = none := by
  cases w with
  | none => exact hrest
  | some w => exact hw w

namespace ReceiverSyntax

open Reader

/-- The words of a receiver, and what is read behind them. -/
theorem yields_binding {f : Bool → Reader (Option Receiver)}
    (mutWord : Option (Token.Word "mut")) (self : Token.Word "self") {taken rest : List TokenTree}
    {b : Option Receiver} (h : (f mutWord.isSome).Yields taken rest b) :
    Reader.Yields (do
        let isMut ← eatWord "mut"
        if ← eatWord "self" then f isMut else return none)
      (maybe mutWord ++ (TokenTree.token self.1 :: taken)) rest b := by
  have hmut : (eatWord "mut").Yields (maybe mutWord) (TokenTree.token self.1 :: (taken ++ rest))
      mutWord.isSome :=
    yields_eatWord_maybe mutWord fun _ => Token.Word.token?_ne self (by decide)
  refine .bind hmut ?_
  refine Yields.bind (yields_eatWord self (taken ++ rest)) ?_
  exact h

theorem yields_referenceReceiver (lifetime : Option (Token.OfKind .lifetime))
    (mutWord : Option (Token.Word "mut")) (self : Token.Word "self") :
    referenceReceiver.Yields (maybe lifetime ++ (maybe mutWord ++ [.token self.1])) []
      (some ⟨true, mutWord.isSome, lifetime.map fun t => t.1.text⟩) := by
  refine .bind (yields_eat_maybe (fun t ht => by simp [ht]) lifetime fun _ => ?_) ?_
  · rw [List.append_nil]
    exact Token.Word.head?_maybe mutWord Token.Word.token?_lifetime (Token.Word.token?_lifetime self)
  · rw [Option.map_map]
    refine yields_binding mutWord self ?_
    exact yields_whenAtEnd _ []

theorem receiver_eq (r : ReceiverSyntax) : Reader.receiver.Yields r.trees [] (some r.receiver) := by
  have hno {rest : List TokenTree} (mutWord : Option (Token.Word "mut")) (self : Token.Word "self") :
      (maybe mutWord ++ .token self.1 :: rest).head?.bind
        (TokenTree.token? (·.isPunct "&")) = none :=
    Token.Word.head?_maybe mutWord (Token.Word.token?_punct · _) (Token.Word.token?_punct self _)
  cases r with
  | value mutWord self =>
    refine .before (yields_eat_none ?_) ?_
    · rw [List.append_nil]
      exact hno mutWord self
    · refine yields_binding mutWord self ?_
      exact .before (yields_whenAtEnd _ []) (yields_pure _ _)
  | reference amp lifetime mutWord self =>
    exact Yields.bind (yields_eat amp.2 _) (yields_referenceReceiver lifetime mutWord self)
  | typed mutWord self colon type =>
    refine .before (yields_eat_none ?_) ?_
    · rw [List.append_nil]
      exact hno mutWord self
    · refine yields_binding mutWord self ?_
      refine .before (yields_whenAtEnd _ _) ?_
      refine Yields.bind (yields_expectPunct colon _) ?_
      refine .after (type.toReadableType.yields _) ?_
      have hreceiver : typedReceiver mutWord.isSome type.type =
          (typed mutWord self colon type).receiver := by
        rw [ReceiverSyntax.receiver]
        cases type.type <;> rfl
      rw [hreceiver]
      exact yields_pure _ _

end ReceiverSyntax

/-! ### Parameters -/

theorem isPunct_of_isToken {p : Token → Bool} {tree : TokenTree} (h : tree.isToken p = true)
    (hp : ∀ t, p t = true → t.kind ≠ .punct) (text : String) : tree.isPunct text = false := by
  cases tree with
  | group => rfl
  | token t =>
    have ht : p t = true := by
      by_contra hp
      simp [TokenTree.isToken, TokenTree.token?, hp] at h
    exact TokenTree.isPunct_eq_false_of_kind (hp t ht) text

theorem kind_of_isIdent {name : String} (t : Token) (h : t.isIdent name = true) :
    t.kind ≠ .punct := by
  rw [Token.Word.kind_eq ⟨t, h⟩]
  decide

namespace Reader

/-- Trees with a colon are no receiver by reference: it would have to end at `self`. -/
theorem exists_yields_referenceReceiver {trees : List TokenTree}
    (hcolon : ∃ tree ∈ trees, tree.isPunct ":" = true) :
    ∃ taken rest, trees = taken ++ rest ∧ referenceReceiver.Yields taken rest none := by
  obtain ⟨colon, hmem, hcolon⟩ := hcolon
  obtain ⟨lifetime, t₁, r₁, rfl, hlifetime, ht₁⟩ := exists_yields_eat (·.kind == .lifetime) trees
  obtain ⟨isMut, t₂, r₂, rfl, hmut, ht₂⟩ := exists_yields_eatWord "mut" r₁
  obtain ⟨isSelf, t₃, r₃, rfl, hself, ht₃⟩ := exists_yields_eatWord "self" r₂
  have hr₃ : r₃ ≠ [] := by
    rintro rfl
    have hno : colon.isPunct ":" = false := by
      simp only [List.append_nil, List.mem_append] at hmem
      rcases hmem with hmem | hmem | hmem
      · exact isPunct_of_isToken (ht₁ _ hmem) (fun t ht => by simp_all) _
      · exact isPunct_of_isToken (ht₂ _ hmem) kind_of_isIdent _
      · exact isPunct_of_isToken (ht₃ _ hmem) kind_of_isIdent _
    rw [hno] at hcolon
    cases hcolon
  rw [← List.append_assoc t₂] at hlifetime
  refine ⟨t₁ ++ (t₂ ++ t₃), r₃, by simp, .bind hlifetime (.bind hmut (.after hself ?_))⟩
  cases isSelf with
  | false => exact yields_pure _ _
  | true =>
    have hend := yields_whenAtEnd (⟨true, isMut, lifetime.map Token.text⟩ : Receiver) r₃
    rw [if_neg hr₃] at hend
    exact hend

theorem token?_eq_none {p : Token → Bool} {tree : TokenTree} (h : tree.isToken p = false) :
    tree.token? p = none :=
  Option.isSome_eq_false_iff.1 h |> Option.isNone_iff_eq_none.1

theorem isIdent_of_isPunct {text : String} {tree : TokenTree} (h : tree.isPunct text = true)
    (name : String) : tree.isIdent name = false := by
  obtain ⟨t, rfl, hkind, _⟩ := TokenTree.isPunct_iff.1 h
  simp [TokenTree.isIdent, TokenTree.isToken, TokenTree.token?, Token.isIdent, hkind]

/-- A parameter is no receiver. -/
theorem exists_yields_receiver {first : TokenTree} {others type : List TokenTree}
    {colon : TokenTree} (hcolon : colon.isPunct ":" = true)
    (hself : ¬BeginsWithSelf (first :: others)) :
    ∃ taken rest, first :: others ++ colon :: type = taken ++ rest ∧
      receiver.Yields taken rest none := by
  by_cases hamp : first.isPunct "&" = true
  · obtain ⟨t, rfl, hkind, htext⟩ := TokenTree.isPunct_iff.1 hamp
    have ht : t.isPunct "&" = true := by simp [Token.isPunct, hkind, htext]
    have hmem : ∃ tree ∈ others ++ colon :: type, tree.isPunct ":" = true :=
      ⟨colon, by simp, hcolon⟩
    obtain ⟨taken, rest, heq, hyields⟩ := exists_yields_referenceReceiver hmem
    refine ⟨.token t :: taken, rest, by rw [List.cons_append, heq]; rfl, ?_⟩
    exact Yields.bind (yields_eat ht _) hyields
  · have hnoAmp : (first :: others ++ colon :: type).head?.bind
        (TokenTree.token? (·.isPunct "&")) = none :=
      token?_eq_none (Bool.eq_false_iff.2 hamp)
    have hfirst : first.isIdent "self" = false := by
      rw [Bool.eq_false_iff]
      intro h
      cases others with
      | nil => exact hself h
      | cons next others => exact hself (.inl h)
    by_cases hmut : first.isIdent "mut" = true
    · obtain ⟨t, htoken⟩ := Option.isSome_iff_exists.1 hmut
      obtain ⟨rfl, ht⟩ := TokenTree.token?_eq_some htoken
      have hnext : (others ++ colon :: type).head?.bind
          (TokenTree.token? (·.isIdent "self")) = none := by
        cases others with
        | nil => exact token?_eq_none (isIdent_of_isPunct hcolon _)
        | cons next others =>
          refine token?_eq_none (Bool.eq_false_iff.2 fun h => hself (.inr ⟨hmut, h⟩))
      have hword := yields_eatWord ⟨t, ht⟩ (others ++ colon :: type)
      refine ⟨[.token t], others ++ colon :: type, rfl,
        .before (yields_eat_none hnoAmp) (.after hword ?_)⟩
      exact .before (yields_eatWord_false hnext) (yields_pure _ _)
    · have hword : (eatWord "mut").Yields [] (first :: others ++ colon :: type) false :=
        yields_eatWord_false (token?_eq_none (Bool.eq_false_iff.2 hmut))
      refine ⟨[], first :: others ++ colon :: type, rfl,
        .before (yields_eat_none hnoAmp) (.before hword ?_)⟩
      exact .before (yields_eatWord_false (token?_eq_none hfirst)) (yields_pure _ _)

end Reader

namespace ParameterSyntax

open Reader

variable (p : ParameterSyntax)

theorem leading_pattern (rest : List TokenTree) :
    Attribute.leading (p.first :: p.others ++ .token p.colon.1 :: rest) =
      ([], p.first :: p.others ++ .token p.colon.1 :: rest) :=
  Attribute.leading_eq_nil (p.unmarked p.first List.mem_cons_self "#" (by simp))

theorem yields_parameter (attributes : List Attribute) :
    (Reader.parameter attributes).Yields (p.first :: p.others ++ .token p.colon.1 :: p.type.trees) []
      ⟨p.first :: p.others, p.type.type, attributes, p.first.start⟩ := by
  have hpattern : (takeUntil (·.isPunct ":")).Yields (p.first :: p.others)
      (.token p.colon.1 :: p.type.trees ++ []) (p.first :: p.others) :=
    yields_takeUntil (fun tree h => p.unmarked tree h ":" (by simp))
      (by simp [TokenTree.isPunct_mark p.colon])
  refine .bind hpattern (Yields.bind (yields_expectPunct p.colon _) ?_)
  exact .after (p.type.toReadableType.yields _) (yields_pure _ _)

theorem yields_anyParameter : anyParameter.Yields p.trees [] p.parameter := by
  refine .bind (AttributeSyntax.yields p.attributes ?_) (p.yields_parameter _)
  rw [List.append_nil]
  exact p.leading_pattern _

theorem yields_firstParameter : firstParameter.Yields p.trees [] (.inr p.parameter) := by
  refine .bind (AttributeSyntax.yields p.attributes ?_) ?_
  · rw [List.append_nil]
    exact p.leading_pattern _
  · obtain ⟨taken, rest, heq, hnone⟩ :=
      exists_yields_receiver (TokenTree.isPunct_mark p.colon) p.notSelf
    have hlook := hnone.lookahead
    rw [← heq, ← List.append_nil (_ ++ _)] at hlook
    exact .before hlook (.after (p.yields_parameter _) (yields_pure _ _))

theorem whole : Whole p.trees := by
  refine (AttributeSyntax.whole p.attributes).append (.append (.of_forall fun tree h => ?_) ?_)
  · exact ⟨p.unmarked tree h "<" (by simp), p.unmarked tree h ">" (by simp),
      p.unmarked tree h "," (by simp)⟩
  · exact (TokenTree.Inert.of_mark p.colon (by decide)).cons_whole p.type.whole

theorem trees_ne_nil : p.trees ≠ [] := by
  simp [trees]

end ParameterSyntax

namespace ReceiverSyntax

open Reader

theorem head?_eq (r : ReceiverSyntax) :
    r.trees.head?.any (·.isPunct "#") = false ∧ r.trees ≠ [] := by
  have hwords (mutWord : Option (Token.Word "mut")) (self : Token.Word "self")
      (rest : List TokenTree) : (maybe mutWord ++ .token self.1 :: rest).head?.any
        (·.isPunct "#") = false := by
    have hself := Token.Word.token?_punct self "#"
    cases mutWord with
    | none => simp [maybe, TokenTree.isPunct, TokenTree.isToken, hself]
    | some w => simp [maybe, TokenTree.isPunct, TokenTree.isToken, Token.Word.token?_punct w "#"]
  cases r with
  | value mutWord self => exact ⟨hwords mutWord self [], by simp [trees]⟩
  | reference amp lifetime mutWord self =>
    exact ⟨TokenTree.isPunct_eq_false (TokenTree.isPunct_mark amp) (by decide), by simp [trees]⟩
  | typed mutWord self colon type => exact ⟨hwords mutWord self _, by simp [trees]⟩

theorem runOn_firstParameter (attributes : List AttributeSyntax) (r : ReceiverSyntax)
    (anchor : Location) :
    firstParameter.runOn (attributes.flatMap AttributeSyntax.trees ++ r.trees) anchor =
      .ok (.inl r.receiver) := by
  have hattributes := AttributeSyntax.yields attributes (Attribute.leading_eq_nil r.head?_eq.1)
  have hlook := r.receiver_eq.lookahead
  rw [List.append_nil] at hlook
  have hyields : firstParameter.Yields (attributes.flatMap AttributeSyntax.trees) r.trees
      (.inl r.receiver) :=
    .after hattributes (.before hlook (yields_pure _ _))
  exact hyields.runOn anchor

theorem whole (r : ReceiverSyntax) : Whole r.trees := by
  have hword {name : String} (w : Token.Word name) : TokenTree.Inert (.token w.1) :=
    .of_kind (kind_of_isIdent w.1 w.2)
  cases r with
  | value mutWord self =>
    exact (TokenTree.Inert.whole (TokenTree.inert_mut mutWord)).append ((hword self).cons_whole .nil)
  | reference amp lifetime mutWord self =>
    exact (TokenTree.Inert.of_mark amp (by decide)).cons_whole
      ((TokenTree.Inert.whole (TokenTree.inert_lifetime lifetime)).append
        ((TokenTree.Inert.whole (TokenTree.inert_mut mutWord)).append ((hword self).cons_whole .nil)))
  | typed mutWord self colon type =>
    exact (TokenTree.Inert.whole (TokenTree.inert_mut mutWord)).append ((hword self).cons_whole
      ((TokenTree.Inert.of_mark colon (by decide)).cons_whole type.whole))

end ReceiverSyntax

/-! ### Parameter lists -/

namespace ParametersSyntax

open Reader

variable (anchor : Location)

theorem runOn_anyParameter (p : ParameterSyntax) :
    anyParameter.runOn p.trees anchor = .ok p.parameter := by
  have h := p.yields_anyParameter.runOn anchor
  rwa [List.append_nil] at h

theorem runOn_firstParameter (p : ParameterSyntax) :
    firstParameter.runOn p.trees anchor = .ok (.inr p.parameter) := by
  have h := p.yields_firstParameter.runOn anchor
  rwa [List.append_nil] at h

theorem mapM_anyParameter (params : List ParameterSyntax) :
    (params.map ParameterSyntax.trees).mapM (anyParameter.runOn · anchor) =
      .ok (params.map ParameterSyntax.parameter) := by
  induction params with
  | nil => rfl
  | cons p params ih =>
    rw [List.map_cons, List.mapM_cons, runOn_anyParameter, ih]
    rfl

theorem splitCommas_params (params : CommaList ParameterSyntax) :
    splitCommas (params.trees ParameterSyntax.trees) =
      params.toList.map ParameterSyntax.trees :=
  CommaList.splitCommas_trees ParameterSyntax.whole ParameterSyntax.trees_ne_nil params

theorem parametersOf_eq_nil {inner : List TokenTree} {opener closer : Token}
    (hsplit : splitCommas inner = []) :
    Method.parametersOf ⟨.paren, opener, inner, closer⟩ = .ok (none, []) := by
  rw [Method.parametersOf]
  dsimp only
  rw [hsplit]
  rfl

theorem parametersOf_eq {inner chunk : List TokenTree} {chunks : List (List TokenTree)}
    {opener closer : Token} {first : Receiver ⊕ Parameter} {others : List Parameter}
    (hsplit : splitCommas inner = chunk :: chunks)
    (hfirst : firstParameter.runOn chunk opener.start = .ok first)
    (hothers : chunks.mapM (anyParameter.runOn · opener.start) = .ok others) :
    Method.parametersOf ⟨.paren, opener, inner, closer⟩ =
      .ok (first.elim (fun receiver => (some receiver, others)) fun p => (none, p :: others)) := by
  rw [Method.parametersOf]
  dsimp only
  rw [hsplit]
  dsimp only
  rw [hfirst, hothers]
  cases first <;> rfl

/-- The parentheses of a parameter list read the receiver and the parameters. -/
theorem parametersOf_group (params : ParametersSyntax) (opener closer : Token) :
    Method.parametersOf ⟨.paren, opener, params.trees, closer⟩ =
      .ok (params.receiver?, params.params) := by
  cases params with
  | free params =>
    have hsplit := splitCommas_params params
    cases hlist : params.toList with
    | nil =>
      rw [hlist] at hsplit
      rw [ParametersSyntax.params, hlist]
      exact parametersOf_eq_nil hsplit
    | cons p others =>
      rw [hlist] at hsplit
      rw [ParametersSyntax.params, hlist]
      exact parametersOf_eq hsplit (runOn_firstParameter _ p) (mapM_anyParameter _ others)
  | receiver attributes self =>
    have hwhole := (AttributeSyntax.whole attributes).append self.whole
    have hne : attributes.flatMap AttributeSyntax.trees ++ self.trees ≠ [] := by
      simp [self.head?_eq.2]
    exact parametersOf_eq (hwhole.splitCommas_self hne)
      (self.runOn_firstParameter attributes opener.start) (mapM_anyParameter opener.start [])
  | method attributes self comma params =>
    have hwhole := (AttributeSyntax.whole attributes).append self.whole
    have hsplit := hwhole.splitCommas_comma (TokenTree.isPunct_mark comma)
      (params.trees ParameterSyntax.trees)
    rw [splitCommas_params] at hsplit
    exact parametersOf_eq hsplit (self.runOn_firstParameter attributes opener.start)
      (mapM_anyParameter _ params.toList)

end ParametersSyntax

end LuaBindings
