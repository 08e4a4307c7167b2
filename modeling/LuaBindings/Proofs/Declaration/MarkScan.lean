import LuaBindings.Proofs.Declaration.Joined
import LuaBindings.Proofs.TokenTree.Fitting

/-!
# Marks, token by token

A search looks at the places that have nothing but braces around them. A scan of the tokens knows
the groups that are open, how much of an attribute it has seen, and whether an attribute with the
name has been among those at such places (`MarkScan`). It has just if the search of the trees finds
something (`MarkScan.foldlM_inTrees`).
-/

set_option autoImplicit false

namespace LuaBindings

open TokenTree (flatten Formed)

/-- What the last tokens began. -/
inductive MarkScan.Mode where
  | idle
  | hash
  /-- In the brackets of an attribute, in front of its path. -/
  | opened
  | segment (name : String)
  /-- Behind the colons after a segment, or after none. -/
  | colons (name : String)
  deriving DecidableEq

structure MarkScan where
  groups : List Delimiter
  mode : MarkScan.Mode
  found : Bool

namespace MarkScan

def isSearched (groups : List Delimiter) : Bool := groups.all (· == .brace)

def Mode.outside (mode : Mode) (content : Token.Content) : Mode :=
  if content = (.punct, ['#']) then .hash
  else if mode = .hash ∧ content.1 = .opener .bracket then .opened
  else .idle

/-- How the path of an attribute goes on, or the name that it ends with. -/
def Mode.inside (mode : Mode) (content : Token.Content) : Mode × Option String :=
  match mode with
  | .opened =>
    if content.1 = .ident then (.segment (String.ofList content.2), none)
    else if content = (.punct, [':', ':']) then (.colons "", none)
    else (.idle, some "")
  | .segment name =>
    if content = (.punct, [':', ':']) then (.colons name, none) else (.idle, some name)
  | .colons name =>
    if content.1 = .ident then (.segment (String.ofList content.2), none) else (.idle, some name)
  | _ => (.idle, none)

def next (attrName : String) (s : MarkScan) (content : Token.Content) : Option MarkScan :=
  (content.1.groupsBehind s.groups).map fun groups =>
    if isSearched s.groups then ⟨groups, s.mode.outside content, s.found⟩
    else
      let (mode, name?) := s.mode.inside content
      ⟨groups, mode, s.found || name? == some attrName⟩

/-- No path of an attribute has been begun. -/
def Mode.IsResting (mode : Mode) : Prop := mode = .idle ∨ mode = .hash

section
variable {attrName : String} {g behind inner outer : List Delimiter} {m : Mode} {f : Bool}
  {s s' : MarkScan} {content : Token.Content} {contents : List Token.Content}

theorem isSearched_append (inner outer : List Delimiter) :
    isSearched (inner ++ outer) = (isSearched inner && isSearched outer) :=
  List.all_append

theorem next_searched (h : isSearched g = true) : next attrName ⟨g, m, f⟩ content =
    (content.1.groupsBehind g).map (⟨·, m.outside content, f⟩) := by
  simp only [next, h, if_true]

theorem next_enclosed (h : isSearched g = false) : next attrName ⟨g, m, f⟩ content =
    (content.1.groupsBehind g).map
      (⟨·, (m.inside content).1, f || (m.inside content).2 == some attrName⟩) := by
  simp only [next, h, Bool.false_eq_true, if_false]

/-! ### Groups -/

theorem nests_of_next (h : next attrName s content = some s') :
    nests s.groups content = some s'.groups := by
  obtain ⟨groups, hgroups, rfl⟩ := Option.map_eq_some_iff.1 h
  rw [nests, hgroups]
  split <;> rfl

/-- Nothing is refused but a closer that does not fit, and what has been found stays found. -/
theorem exists_foldlM (h : contents.foldlM nests g = some behind) (attrName : String) (m : Mode)
    (f : Bool) : ∃ last found,
      contents.foldlM (next attrName) ⟨g, m, f⟩ = some ⟨behind, last, f || found⟩ := by
  induction contents generalizing g m f with
  | nil =>
    cases h
    exact ⟨m, false, by rw [Bool.or_false]; rfl⟩
  | cons content contents ih =>
    rw [List.foldlM_cons] at h
    obtain ⟨middle, hmiddle, hrest⟩ := Option.bind_eq_some_iff.1 h
    have hgroups : content.1.groupsBehind g = some middle := hmiddle
    rw [List.foldlM_cons]
    cases hsearched : isSearched g with
    | true =>
      rw [next_searched hsearched, hgroups]
      exact ih hrest _ _
    | false =>
      rw [next_enclosed hsearched, hgroups]
      obtain ⟨last, found, hfound⟩ := ih hrest (m.inside content).1
        (f || (m.inside content).2 == some attrName)
      exact ⟨last, _, by rw [← Bool.or_assoc]; exact hfound⟩

theorem isSearched_groupsBehind {kind : TokenKind} (h : kind.groupsBehind g = some behind)
    (hsearched : isSearched g = false) (hbehind : isSearched behind = true) :
    ∃ d, kind = .closer d := by
  cases kind with
  | closer d => exact ⟨d, rfl⟩
  | opener d =>
    cases h
    rw [isSearched, List.all_cons, Bool.and_eq_true] at hbehind
    rw [isSearched, hbehind.2] at hsearched
    cases hsearched
  | _ =>
    cases h
    rw [hsearched] at hbehind
    cases hbehind

/-- Where a text is searched, no path has been begun. -/
theorem resting_of_next (h : next attrName s content = some s')
    (hsearched : isSearched s'.groups = true) : s'.mode.IsResting := by
  obtain ⟨groups, hgroups, rfl⟩ := Option.map_eq_some_iff.1 h
  split at hsearched
  · rename_i hs
    rw [if_pos hs]
    unfold Mode.outside
    split
    · exact .inr rfl
    · split
      · rename_i hopener
        rw [hopener.2] at hgroups
        cases hgroups
        cases hsearched
      · exact .inl rfl
  · rename_i hs
    obtain ⟨d, hcloser⟩ :=
      isSearched_groupsBehind hgroups (Bool.eq_false_iff.2 hs) hsearched
    rw [if_neg hs]
    left
    obtain ⟨kind, lexeme⟩ := content
    subst hcloser
    cases s.mode <;> simp [Mode.inside]

theorem resting_of_foldlM (h : contents.foldlM (next attrName) s = some s')
    (hs : s.mode.IsResting) (hsearched : isSearched s'.groups = true) : s'.mode.IsResting := by
  rcases List.eq_nil_or_concat contents with rfl | ⟨front, last, rfl⟩
  · cases h
    exact hs
  · rw [List.concat_eq_append, List.foldlM_append] at h
    obtain ⟨middle, -, hlast⟩ := Option.bind_eq_some_iff.1 h
    rw [List.foldlM_cons] at hlast
    obtain ⟨_, hnext, hend⟩ := Option.bind_eq_some_iff.1 hlast
    cases hend
    exact resting_of_next hnext hsearched

/-! ### Tokens without attributes -/

/-- Where a text is not searched, and where no hash sign is, the scan stays idle. -/
theorem next_idle (h : isSearched g = true → content ≠ (.punct, ['#'])) :
    next attrName ⟨g, .idle, f⟩ content = (content.1.groupsBehind g).map (⟨·, .idle, f⟩) := by
  cases hsearched : isSearched g with
  | true =>
    rw [next_searched hsearched, Mode.outside, if_neg (h hsearched), if_neg (by rintro ⟨⟨⟩, -⟩)]
  | false => rw [next_enclosed hsearched]; simp [Mode.inside]

theorem next_hash (hsearched : isSearched g = true) (h : content.1 ≠ .opener .bracket) :
    next attrName ⟨g, .hash, f⟩ content = next attrName ⟨g, .idle, f⟩ content := by
  have hmode : Mode.hash.outside content = Mode.idle.outside content := by
    simp [Mode.outside, h]
  rw [next_searched hsearched, next_searched hsearched, hmode]

theorem next_resting (hm : m.IsResting) (h : content.1 ≠ .opener .bracket) :
    next attrName ⟨g, m, f⟩ content = next attrName ⟨g, .idle, f⟩ content := by
  rcases hm with rfl | rfl
  · rfl
  · cases hsearched : isSearched g with
    | true => exact next_hash hsearched h
    | false => rw [next_enclosed hsearched, next_enclosed hsearched]; rfl

theorem groupsBehind_outer {kind : TokenKind} (h : kind.groupsBehind g = some behind)
    (outer : List Delimiter) : kind.groupsBehind (g ++ outer) = some (behind ++ outer) := by
  have hnest : nest g [kind] = some behind := by rw [nest, h]; rfl
  have houter := nest_outer hnest outer
  rw [nest] at houter
  obtain ⟨_, hgroups, hend⟩ := Option.bind_eq_some_iff.1 houter
  cases hend
  exact hgroups

theorem foldlM_inert (h : contents.foldlM nests inner = some behind)
    (houter : isSearched outer = false) (attrName : String) (f : Bool) :
    contents.foldlM (next attrName) ⟨inner ++ outer, .idle, f⟩ =
      some ⟨behind ++ outer, .idle, f⟩ := by
  induction contents generalizing inner with
  | nil =>
    cases h
    rfl
  | cons content contents ih =>
    rw [List.foldlM_cons] at h ⊢
    obtain ⟨middle, hmiddle, hrest⟩ := Option.bind_eq_some_iff.1 h
    have hsearched : isSearched (inner ++ outer) = false := by
      rw [isSearched_append, houter, Bool.and_false]
    rw [next_idle (by simp [hsearched]), groupsBehind_outer hmiddle outer]
    exact ih hrest

theorem foldlM_quiet (h : contents.foldlM nests g = some behind)
    (hquiet : ∀ content ∈ contents, content ≠ (.punct, ['#'])) (attrName : String) (f : Bool) :
    contents.foldlM (next attrName) ⟨g, .idle, f⟩ = some ⟨behind, .idle, f⟩ := by
  induction contents generalizing g with
  | nil =>
    cases h
    rfl
  | cons content contents ih =>
    obtain ⟨hcontent, hcontents⟩ := List.forall_mem_cons.1 hquiet
    rw [List.foldlM_cons] at h ⊢
    obtain ⟨middle, hmiddle, hrest⟩ := Option.bind_eq_some_iff.1 h
    have hgroups : content.1.groupsBehind g = some middle := hmiddle
    rw [next_idle fun _ => hcontent, hgroups]
    exact ih hrest hcontents

/-- At a place that is searched, tokens that open and close nothing leave what has been found. -/
theorem eq_of_foldlM_plain (hg : isSearched g = true)
    (hplain : ∀ content ∈ contents, content.1.isDelimiter = false)
    (h : contents.foldlM (next attrName) s = some ⟨g, m, f⟩) : s.groups = g ∧ s.found = f := by
  induction contents generalizing s with
  | nil =>
    cases h
    exact ⟨rfl, rfl⟩
  | cons content contents ih =>
    obtain ⟨hcontent, hcontents⟩ := List.forall_mem_cons.1 hplain
    rw [List.foldlM_cons] at h
    obtain ⟨middle, hnext, hrest⟩ := Option.bind_eq_some_iff.1 h
    obtain ⟨hgroups, hfound⟩ := ih hcontents hrest
    obtain ⟨sgroups, smode, sfound⟩ := s
    have hsame : sgroups = g := by
      have hbehind := nests_of_next hnext
      rw [nests, TokenKind.groupsBehind_plain hcontent, hgroups] at hbehind
      exact Option.some.inj hbehind
    subst hsame
    rw [next_searched hg, TokenKind.groupsBehind_plain hcontent] at hnext
    cases hnext
    exact ⟨rfl, hfound⟩

/-- So a name or a number in their place does the same. -/
theorem next_word (hg : isSearched g = true)
    (hplain : ∀ content ∈ contents, content.1.isDelimiter = false)
    (h : contents.foldlM (next attrName) s = some ⟨g, m, f⟩) {kind : TokenKind}
    (hkind : kind ∈ [.ident, .lifetime, .number]) (lexeme : List Char) :
    next attrName s (kind, lexeme) = some ⟨g, .idle, f⟩ := by
  obtain ⟨hgroups, hfound⟩ := eq_of_foldlM_plain hg hplain h
  obtain ⟨sgroups, smode, sfound⟩ := s
  subst hgroups hfound
  simp only [List.mem_cons, List.not_mem_nil, or_false] at hkind
  rw [next_searched hg]
  rcases hkind with rfl | rfl | rfl <;> simp [TokenKind.groupsBehind, Mode.outside]

/-! ### Attributes -/

theorem foldlM_formed {trees : List TokenTree} (hformed : Formed trees)
    (hg : isSearched g = false) (attrName : String) (f : Bool) :
    ((flatten trees).map Token.content).foldlM (next attrName) ⟨g, .idle, f⟩ =
      some ⟨g, .idle, f⟩ :=
  foldlM_inert (hformed.foldlM_nests []) hg attrName f

/-- In front of a token that ends the path. -/
theorem next_ends {name : String} (hg : isSearched g = false)
    (h : m.inside content = (.idle, some name)) :
    next attrName ⟨g, m, f⟩ content = next attrName ⟨g, .idle, f || name == attrName⟩ content := by
  rw [next_enclosed hg, next_enclosed hg, h]
  simp [Mode.inside]

section
variable {closer : Token} (hcloser : closer.kind = .closer .bracket)
include hcloser

theorem next_closer (f : Bool) : next attrName ⟨.bracket :: g, .idle, f⟩ closer.content =
    some ⟨g, .idle, f⟩ := by
  have hgroups : closer.content.1.groupsBehind (.bracket :: g) = some g := by
    rw [Token.content, hcloser]
    rfl
  rw [next_idle (by rintro ⟨⟩), hgroups]
  rfl

/-- Where the path ends in front of some trees, the name is known behind the brackets. -/
theorem foldlM_ends {trees : List TokenTree} {name : String} (hformed : Formed trees)
    (h : ∀ t ∈ (flatten trees ++ [closer]).head?, m.inside t.content = (.idle, some name)) :
    ((flatten trees ++ [closer]).map Token.content).foldlM (next attrName)
        ⟨.bracket :: g, m, f⟩ = some ⟨g, .idle, f || name == attrName⟩ := by
  have hidle : ((flatten trees ++ [closer]).map Token.content).foldlM (next attrName)
      ⟨.bracket :: g, .idle, f || name == attrName⟩ = some ⟨g, .idle, f || name == attrName⟩ := by
    rw [List.map_append, List.foldlM_append, foldlM_formed hformed rfl, List.map_singleton,
      Option.bind_eq_bind, Option.bind_some, List.foldlM_cons, next_closer hcloser]
    rfl
  have hne : flatten trees ++ [closer] ≠ [] := by simp
  obtain ⟨t, rest, hsplit⟩ := List.exists_cons_of_ne_nil hne
  rw [hsplit] at h hidle ⊢
  rw [List.map_cons, List.foldlM_cons] at hidle ⊢
  rw [next_ends rfl (h t rfl)]
  exact hidle

omit hcloser in
/-- A tree is a token, or its first token opens a group. -/
theorem exists_first {tree : TokenTree} {rest : List TokenTree} (h : Formed (tree :: rest))
    (more : List Token) : ∃ t, (flatten (tree :: rest) ++ more).head? = some t ∧
      (tree = .token t ∨ ∃ d, t.kind = .opener d) := by
  cases h with
  | @token t _ _ _ => exact ⟨t, by simp, .inl rfl⟩
  | @group d opener _ _ _ hopener _ _ _ => exact ⟨opener, by simp, .inr ⟨d, hopener⟩⟩

omit hcloser in
theorem content_eq_punct_iff {t : Token} {text : String} :
    t.content = (.punct, text.toList) ↔ t.isPunct text = true := by
  rw [Token.content, Prod.mk.injEq, String.toList_inj, Token.isPunct, Bool.and_eq_true,
    beq_iff_eq, beq_iff_eq]

omit hcloser in
theorem next_segment {t : Token} (ht : t.kind = .ident) (name : String) :
    next attrName ⟨.bracket :: g, .colons name, f⟩ t.content =
      some ⟨.bracket :: g, .segment t.text, f⟩ := by
  rw [next_enclosed rfl, Token.content, ht]
  simp [Mode.inside, TokenKind.groupsBehind]

omit hcloser in
theorem next_colons {t : Token} (ht : t.isPunct "::" = true) (name : String) :
    next attrName ⟨.bracket :: g, .segment name, f⟩ t.content =
      some ⟨.bracket :: g, .colons name, f⟩ := by
  have hcontent : t.content = (.punct, [':', ':']) := content_eq_punct_iff.2 ht
  rw [next_enclosed rfl, hcontent]
  simp [Mode.inside, TokenKind.groupsBehind]

theorem foldlM_pathOf {trees : List TokenTree} (hformed : Formed trees) (name : String) :
    ((flatten trees ++ [closer]).map Token.content).foldlM (next attrName)
        ⟨.bracket :: g, .colons name, f⟩ =
      some ⟨g, .idle, f || (Attribute.pathOf trees).1.getLast?.getD name == attrName⟩ := by
  fun_induction Attribute.pathOf trees generalizing name with
  | case1 tree rest htoken =>
    refine foldlM_ends hcloser hformed fun t ht => ?_
    obtain ⟨first, hfirst, htree⟩ := exists_first hformed [closer]
    cases hfirst.symm.trans ht
    have hkind : t.kind ≠ .ident := by
      rintro hident
      rcases htree with rfl | ⟨d, hopener⟩
      · simp [TokenTree.token?, hident] at htoken
      · cases hident.symm.trans hopener
    simp [Mode.inside, Token.content, hkind]
  | case2 tree t htoken colons rest hcolons path after heq ih =>
    obtain ⟨rfl, hident⟩ := TokenTree.token?_eq_some htoken
    obtain ⟨u, rfl, hpunct⟩ : ∃ u, colons = .token u ∧ u.isPunct "::" = true := by
      obtain ⟨u, hu⟩ := Option.isSome_iff_exists.1 hcolons
      exact ⟨u, TokenTree.token?_eq_some hu⟩
    have hrest : Formed rest :=
      hformed.of_part ((List.suffix_cons _ _).trans (List.suffix_cons _ _)).isInfix
    rw [TokenTree.flatten_token_cons, TokenTree.flatten_token_cons, List.cons_append,
      List.cons_append, List.map_cons, List.map_cons, List.foldlM_cons,
      next_segment (beq_iff_eq.1 hident), Option.bind_eq_bind, Option.bind_some, List.foldlM_cons,
      next_colons hpunct, Option.bind_eq_bind, Option.bind_some, ih hrest, heq]
    simp [List.getLast?_cons]
  | case3 tree t htoken other rest hother =>
    obtain ⟨rfl, hident⟩ := TokenTree.token?_eq_some htoken
    have hrest : Formed (other :: rest) := hformed.of_part (List.suffix_cons _ _).isInfix
    rw [TokenTree.flatten_token_cons, List.cons_append, List.map_cons, List.foldlM_cons,
      next_segment (beq_iff_eq.1 hident), Option.bind_eq_bind, Option.bind_some]
    refine foldlM_ends hcloser hrest fun u hu => ?_
    obtain ⟨first, hfirst, htree⟩ := exists_first hrest [closer]
    cases hfirst.symm.trans hu
    have hpunct : u.content ≠ (.punct, [':', ':']) := by
      intro hcontent
      rcases htree with rfl | ⟨d, hopener⟩
      · have hu : u.isPunct "::" = true := content_eq_punct_iff.1 hcontent
        simp [TokenTree.isPunct, TokenTree.isToken, TokenTree.token?, hu] at hother
      · cases (congrArg Prod.fst hcontent).symm.trans hopener
    simp [Mode.inside, hpunct]
  | case4 tree t htoken =>
    obtain ⟨rfl, hident⟩ := TokenTree.token?_eq_some htoken
    rw [TokenTree.flatten_token_cons, List.cons_append, List.map_cons, List.foldlM_cons,
      next_segment (beq_iff_eq.1 hident), Option.bind_eq_bind, Option.bind_some]
    refine foldlM_ends hcloser .nil fun u hu => ?_
    cases hu
    simp [Mode.inside, Token.content, hcloser]
  | case5 =>
    refine foldlM_ends hcloser .nil fun u hu => ?_
    cases hu
    simp [Mode.inside, Token.content, hcloser]

omit hcloser in
/-- Without colons in front of the path it begins as behind them. -/
theorem foldlM_opened {tokens : List Token}
    (h : ∀ t ∈ (tokens ++ [closer]).head?, t.isPunct "::" = false) :
    ((tokens ++ [closer]).map Token.content).foldlM (next attrName) ⟨.bracket :: g, .opened, f⟩ =
      ((tokens ++ [closer]).map Token.content).foldlM (next attrName)
        ⟨.bracket :: g, .colons "", f⟩ := by
  have hne : tokens ++ [closer] ≠ [] := by simp
  obtain ⟨t, rest, hsplit⟩ := List.exists_cons_of_ne_nil hne
  rw [hsplit] at h ⊢
  have hcontent : t.content ≠ (.punct, [':', ':']) := by
    intro hcontent
    have ht : t.isPunct "::" = true := content_eq_punct_iff.1 hcontent
    rw [h t rfl] at ht
    cases ht
  rw [List.map_cons, List.foldlM_cons, List.foldlM_cons, next_enclosed rfl, next_enclosed rfl]
  simp [Mode.inside, hcontent]

/-- The path begins behind colons that may stand in front of it. -/
theorem foldlM_brackets {inner : List TokenTree} (hformed : Formed inner) (hash opener : Token) :
    ((flatten inner ++ [closer]).map Token.content).foldlM (next attrName)
        ⟨.bracket :: g, .opened, f⟩ =
      some ⟨g, .idle, f ||
        (Attribute.ofBrackets hash ⟨.bracket, opener, inner, closer⟩).name == attrName⟩ := by
  unfold Attribute.ofBrackets Attribute.name
  cases inner with
  | nil =>
    rw [foldlM_opened, foldlM_pathOf hcloser .nil]
    rintro t ⟨⟩
    simp [Token.isPunct, hcloser]
  | cons tree rest =>
    by_cases hcolons : tree.isPunct "::" = true
    · obtain ⟨u, hu⟩ := Option.isSome_iff_exists.1 hcolons
      obtain ⟨rfl, hpunct⟩ := TokenTree.token?_eq_some hu
      have hrest : Formed rest := hformed.of_part (List.suffix_cons _ _).isInfix
      have hcontent : u.content = (.punct, [':', ':']) := content_eq_punct_iff.2 hpunct
      have hfirst : next attrName ⟨.bracket :: g, .opened, f⟩ u.content =
          some ⟨.bracket :: g, .colons "", f⟩ := by
        rw [next_enclosed rfl, hcontent]
        simp [Mode.inside, TokenKind.groupsBehind]
      rw [TokenTree.flatten_token_cons, List.cons_append, List.map_cons, List.foldlM_cons, hfirst,
        Option.bind_eq_bind, Option.bind_some, foldlM_pathOf hcloser hrest]
      simp only [hcolons, if_true]
    · rw [foldlM_opened, foldlM_pathOf hcloser hformed]
      · simp only [hcolons, Bool.false_eq_true, if_false]
      · intro t ht
        obtain ⟨first, hfirst, htree⟩ := exists_first hformed [closer]
        cases hfirst.symm.trans ht
        rcases htree with rfl | ⟨d, hopener⟩
        · simpa [TokenTree.isPunct, TokenTree.isToken, TokenTree.token?] using hcolons
        · simp [Token.isPunct, hopener]

end

/-- At a place that is searched, an attribute is told from its hash sign on, and has been found
behind its brackets if it has the name. -/
theorem foldlM_attribute {a : Attribute} (ha : a.Formed) (hformed : Formed a.trees)
    (hg : isSearched g = true) (attrName : String) (m : Mode) (f : Bool) :
    ((flatten a.trees).map Token.content).foldlM (next attrName) ⟨g, m, f⟩ =
      some ⟨g, .idle, f || a.name == attrName⟩ := by
  obtain ⟨hash, brackets, hhash, hbracket, rfl⟩ := ha
  obtain ⟨d, opener, inner, closer⟩ := brackets
  subst hbracket
  have hformed : Formed [.token hash, .group .bracket opener inner closer] := hformed
  have hgroup : Formed [.group .bracket opener inner closer] :=
    hformed.of_part (List.suffix_cons _ _).isInfix
  obtain ⟨hinner, hcloser⟩ := hgroup.of_group
  have hopener : opener.kind = .opener .bracket := by
    cases hgroup with
    | group hopener _ _ _ => exact hopener
  have hfirst : next attrName ⟨g, m, f⟩ hash.content = some ⟨g, .hash, f⟩ := by
    have hcontent : hash.content = (.punct, ['#']) := content_eq_punct_iff.2 hhash
    rw [next_searched hg, hcontent]
    rfl
  have hsecond : next attrName ⟨g, .hash, f⟩ opener.content =
      some ⟨.bracket :: g, .opened, f⟩ := by
    rw [next_searched hg, Token.content, hopener]
    simp [Mode.outside, TokenKind.groupsBehind]
  change ((flatten [.token hash, .group .bracket opener inner closer]).map
    Token.content).foldlM (next attrName) _ = _
  rw [TokenTree.flatten_token_cons, TokenTree.flatten_group_cons, TokenTree.flatten_nil,
    List.map_cons, List.map_cons, List.foldlM_cons, hfirst, Option.bind_eq_bind, Option.bind_some,
    List.foldlM_cons, hsecond, Option.bind_eq_bind, Option.bind_some]
  exact foldlM_brackets hcloser hinner hash opener

/-! ### Searches -/

theorem foldlM_attributes {attributes : List Attribute} (hattributes : ∀ a ∈ attributes, a.Formed)
    (hformed : Formed (attributes.flatMap Attribute.trees)) (hg : isSearched g = true)
    (attrName : String) (f : Bool) :
    ((flatten (attributes.flatMap Attribute.trees)).map Token.content).foldlM (next attrName)
        ⟨g, .idle, f⟩ = some ⟨g, .idle, f || attributes.any (·.name == attrName)⟩ := by
  induction attributes generalizing f with
  | nil => simp
  | cons a attributes ih =>
    obtain ⟨ha, hothers⟩ := List.forall_mem_cons.1 hattributes
    rw [List.flatMap_cons] at hformed ⊢
    obtain ⟨hfirst, hrest⟩ := hformed.of_append
    rw [TokenTree.flatten_append, List.map_append, List.foldlM_append,
      foldlM_attribute ha hfirst hg, Option.bind_eq_bind, Option.bind_some, ih hothers hrest,
      List.any_cons, Bool.or_assoc]

end
end MarkScan

namespace Found

def isEmpty (found : Found) : Bool := found.impls.isEmpty && found.failures.isEmpty

theorem isEmpty_append (a b : Found) : (a.append b).isEmpty = (a.isEmpty && b.isEmpty) := by
  obtain ⟨impls, failures⟩ := a
  obtain ⟨more, others⟩ := b
  cases impls <;> cases failures <;> cases more <;> cases others <;> rfl

end Found

namespace MarkScan

open Found (inTrees)

/-- Only a group in square brackets begins with their opener. -/
theorem kind_of_first {tree : TokenTree} {rest : List TokenTree} (h : Formed (tree :: rest))
    (hnot : tree.isGroup .bracket = false) :
    ∀ t ∈ (flatten (tree :: rest)).head?, t.kind ≠ .opener .bracket := by
  intro t ht hbracket
  cases h with
  | @token u _ hplain _ =>
    cases ht
    rw [hbracket] at hplain
    cases hplain
  | @group d opener closer inner _ hopener _ _ _ =>
    cases ht
    cases hopener.symm.trans hbracket
    cases hnot

/-- Behind a hash sign that begins no attribute the scan goes on as without it. -/
theorem foldlM_resting {attrName : String} {tokens : List Token} (hne : tokens ≠ []) {m : Mode}
    (hm : m.IsResting) (hnot : ∀ t ∈ tokens.head?, m = .idle ∨ t.kind ≠ .opener .bracket)
    (g : List Delimiter) (f : Bool) :
    (tokens.map Token.content).foldlM (next attrName) ⟨g, m, f⟩ =
      (tokens.map Token.content).foldlM (next attrName) ⟨g, .idle, f⟩ := by
  obtain ⟨t, rest, rfl⟩ := List.exists_cons_of_ne_nil hne
  rcases hnot t rfl with rfl | hkind
  · rfl
  · rw [List.map_cons, List.foldlM_cons, List.foldlM_cons, next_resting hm hkind]

/-- Whatever has been found, the scan comes from the one place to the other and finds nothing. -/
def Passes (attrName : String) (g : List Delimiter) (m : Mode) (tokens : List Token)
    (behind : List Delimiter) (last : Mode) : Prop :=
  ∀ f, (tokens.map Token.content).foldlM (next attrName) ⟨g, m, f⟩ = some ⟨behind, last, f⟩

theorem Passes.append {attrName : String} {g middle behind : List Delimiter}
    {m between last : Mode} {xs ys : List Token} (hx : Passes attrName g m xs middle between)
    (hy : Passes attrName middle between ys behind last) :
    Passes attrName g m (xs ++ ys) behind last := by
  intro f
  rw [List.map_append, List.foldlM_append, hx f]
  exact hy f

theorem Passes.of_idle {attrName : String} {g behind : List Delimiter} {m last : Mode}
    {tokens : List Token} (h : Passes attrName g .idle tokens behind last) (hne : tokens ≠ [])
    (hm : m.IsResting) (hnot : ∀ t ∈ tokens.head?, m = .idle ∨ t.kind ≠ .opener .bracket) :
    Passes attrName g m tokens behind last :=
  fun f => (foldlM_resting hne hm hnot g f).trans (h f)

/-- What is behind a token that begins no attribute is scanned as from its start. -/
theorem passes_token {attrName : String} {t : Token} {rest after : List TokenTree}
    (hformed : Formed (.token t :: rest))
    (hleading : Attribute.leading (.token t :: rest) = ([], after)) {g : List Delimiter}
    (hg : isSearched g = true) : ∃ m : Mode, m.IsResting ∧ Passes attrName g .idle [t] g m ∧
      ∀ u ∈ (flatten rest).head?, m = .idle ∨ u.kind ≠ .opener .bracket := by
  have hplain : t.content.1.groupsBehind g = some g := by
    cases hformed with
    | token hplain _ => exact TokenKind.groupsBehind_plain hplain g
  have hpasses : Passes attrName g .idle [t] g (Mode.idle.outside t.content) := by
    intro f
    rw [List.map_singleton, List.foldlM_cons, next_searched hg, hplain]
    rfl
  by_cases hhash : t.isPunct "#" = true
  · have hcontent : t.content = (.punct, ['#']) := content_eq_punct_iff.2 hhash
    rw [hcontent, Mode.outside, if_pos rfl] at hpasses
    refine ⟨.hash, .inr rfl, hpasses, fun u hu => .inr ?_⟩
    cases rest with
    | nil => cases hu
    | cons tree rest =>
      have hrest : Formed (tree :: rest) := hformed.of_part (List.suffix_cons _ _).isInfix
      refine kind_of_first hrest ?_ u hu
      by_contra hgroup
      obtain ⟨brackets, hbrackets⟩ :=
        Option.isSome_iff_exists.1 ((Bool.not_eq_false _).mp hgroup)
      simp [Attribute.leading, TokenTree.token?, hhash, hbrackets] at hleading
  · have hcontent : t.content ≠ (.punct, ['#']) := fun hcontent =>
      hhash (content_eq_punct_iff.1 hcontent)
    rw [Mode.outside, if_neg hcontent, if_neg (by rintro ⟨⟨⟩, -⟩)] at hpasses
    exact ⟨.idle, .inl rfl, hpasses, fun _ _ => .inl rfl⟩

section
variable {attrName : String} {d : Delimiter} {opener closer : Token} {inner : List TokenTree}
  {g : List Delimiter}

theorem passes_opener (hopener : opener.kind = .opener d) (hg : isSearched g = true) :
    Passes attrName g .idle [opener] (d :: g) .idle := by
  intro f
  rw [List.map_singleton, List.foldlM_cons, next_searched hg, Token.content, hopener]
  simp [Mode.outside, TokenKind.groupsBehind]

theorem passes_closer (hcloser : closer.kind = .closer .brace) (hg : isSearched g = true)
    (m : Mode) : Passes attrName (.brace :: g) m [closer] g .idle := by
  intro f
  have hbrace : isSearched (.brace :: g) = true := hg
  rw [List.map_singleton, List.foldlM_cons, next_searched hbrace, Token.content, hcloser]
  simp [Mode.outside, TokenKind.groupsBehind]

/-- Only braces are searched. -/
theorem passes_group (hopener : opener.kind = .opener d) (hcloser : closer.kind = .closer d)
    (hinner : Formed inner) (hd : d ≠ .brace) (hg : isSearched g = true) :
    Passes attrName g .idle (flatten [.group d opener inner closer]) g .idle := by
  have hsearched : isSearched (d :: g) = false := by simp [isSearched, hd]
  have hlast : Passes attrName (d :: g) .idle [closer] g .idle := by
    intro f
    have hgroups : closer.content.1.groupsBehind (d :: g) = some g := by
      rw [Token.content, hcloser]
      exact if_pos rfl
    rw [List.map_singleton, List.foldlM_cons, next_idle (by simp [hsearched]), hgroups]
    rfl
  have hinside : Passes attrName (d :: g) .idle (flatten inner) (d :: g) .idle :=
    foldlM_formed hinner hsearched attrName
  rw [TokenTree.flatten_group_cons, TokenTree.flatten_nil]
  exact (passes_opener hopener hg).append (hinside.append hlast)

/-- Braces are scanned like what is in them. -/
theorem foldlM_braces (hopener : opener.kind = .opener .brace)
    (hcloser : closer.kind = .closer .brace) (hg : isSearched g = true) {f found : Bool} {m : Mode}
    (h : ((flatten inner).map Token.content).foldlM (next attrName) ⟨.brace :: g, .idle, f⟩ =
      some ⟨.brace :: g, m, found⟩) :
    ((flatten [.group .brace opener inner closer]).map Token.content).foldlM (next attrName)
      ⟨g, .idle, f⟩ = some ⟨g, .idle, found⟩ := by
  rw [TokenTree.flatten_group_cons, TokenTree.flatten_nil, ← List.singleton_append,
    List.map_append, List.foldlM_append, passes_opener hopener hg f, Option.bind_eq_bind,
    Option.bind_some, List.map_append, List.foldlM_append, h]
  exact passes_closer hcloser hg m found

end

/-- Behind an attribute with the name, something has been found. -/
theorem foldlM_marked {attrName : String} {attributes : List Attribute} {marker : Attribute}
    {after : List TokenTree} (hattributes : ∀ a ∈ attributes, a.Formed)
    (hformed : Formed (attributes.flatMap Attribute.trees ++ after))
    (hmarker : attributes.find? (·.name == attrName) = some marker) {g : List Delimiter}
    (hg : isSearched g = true) (f : Bool) :
    ∃ m, ((flatten (attributes.flatMap Attribute.trees ++ after)).map Token.content).foldlM
      (next attrName) ⟨g, .idle, f⟩ = some ⟨g, m, true⟩ := by
  obtain ⟨hfront, hafter⟩ := hformed.of_append
  have hany : attributes.any (·.name == attrName) = true :=
    List.any_eq_true.2 ⟨marker, List.mem_of_find?_eq_some hmarker,
      by simpa using List.find?_some hmarker⟩
  obtain ⟨m, found, hm⟩ := exists_foldlM (hafter.foldlM_nests g) attrName .idle true
  refine ⟨m, ?_⟩
  rw [TokenTree.flatten_append, List.map_append, List.foldlM_append,
    foldlM_attributes hattributes hfront hg, hany, Bool.or_true, Option.bind_eq_bind,
    Option.bind_some, hm, Bool.true_or]

/-- At a place that is searched, the scan of some trees finds something just if a search does. -/
theorem foldlM_inTrees (attrName : String) {trees : List TokenTree} (hformed : Formed trees)
    {g : List Delimiter} (hg : isSearched g = true) (f : Bool) :
    ∃ m, ((flatten trees).map Token.content).foldlM (next attrName) ⟨g, .idle, f⟩ =
      some ⟨g, m, f || !(inTrees attrName trees).isEmpty⟩ := by
  fun_induction inTrees attrName trees generalizing g f with
  | case1 => exact ⟨.idle, by simp [Found.isEmpty, Found.empty]⟩
  | case2 tree rest after hleading _ _ ihinner ihrest =>
    have hrest : Formed rest := hformed.of_part (List.suffix_cons tree rest).isInfix
    rw [Found.isEmpty_append, Bool.not_and]
    cases tree with
    | token t =>
      have hinner : inTrees attrName (Found.inBraces (.token t)) = Found.empty :=
        Found.inTrees_nil attrName
      obtain ⟨first, hresting, hpasses, hbehind⟩ := passes_token hformed hleading hg
      obtain ⟨m, hm⟩ := ihrest hrest hg f
      rw [hinner, TokenTree.flatten_token_cons, ← List.singleton_append, List.map_append,
        List.foldlM_append, hpasses f, Option.bind_eq_bind, Option.bind_some]
      by_cases hnil : flatten rest = []
      · rw [hnil] at hm ⊢
        have hsame := congrArg MarkScan.found (Option.some.inj hm)
        exact ⟨first, congrArg some (congrArg (MarkScan.mk g first) hsame)⟩
      · exact ⟨m, (foldlM_resting hnil hresting hbehind g f).trans hm⟩
    | group d opener inner closer =>
      obtain ⟨hinner, hcloser⟩ := hformed.of_group
      have hopener : opener.kind = .opener d := by
        cases hformed with
        | group hopener _ _ _ => exact hopener
      have hgroup : ((flatten [.group d opener inner closer]).map Token.content).foldlM
          (next attrName) ⟨g, .idle, f⟩ = some ⟨g, .idle, f ||
            !(inTrees attrName (Found.inBraces (.group d opener inner closer))).isEmpty⟩ := by
        by_cases hd : d = .brace
        · subst hd
          have hbrace : isSearched (.brace :: g) = true := hg
          obtain ⟨m, hm⟩ := ihinner hinner hbrace f
          exact foldlM_braces hopener hcloser hg hm
        · have hnone : Found.inBraces (.group d opener inner closer) = [] := by
            simp [Found.inBraces, TokenTree.group?, hd]
          rw [hnone, Found.inTrees_nil, passes_group hopener hcloser hinner hd hg f]
          simp [Found.isEmpty, Found.empty]
      obtain ⟨m, hm⟩ := ihrest hrest hg
        (f || !(inTrees attrName (Found.inBraces (.group d opener inner closer))).isEmpty)
      refine ⟨m, ?_⟩
      rw [← List.singleton_append, TokenTree.flatten_append, List.map_append,
        List.foldlM_append, hgroup, Option.bind_eq_bind, Option.bind_some, hm, Bool.or_assoc]
  | case3 tree rest first others after hleading _ attributes hnone =>
    rename_i ih
    obtain ⟨htrees, hattributes, -⟩ := Attribute.leading_eq hleading
    rw [htrees] at hformed ⊢
    obtain ⟨hfront, hafter⟩ := hformed.of_append
    obtain ⟨m, hm⟩ := ih hafter hg f
    have hany : (first :: others).any (·.name == attrName) = false := by
      rw [List.any_eq_false]
      exact List.find?_eq_none.1 hnone
    refine ⟨m, ?_⟩
    rw [TokenTree.flatten_append, List.map_append, List.foldlM_append,
      foldlM_attributes hattributes hfront hg, hany, Bool.or_false, Option.bind_eq_bind,
      Option.bind_some, hm]
  | case4 tree rest first others after hleading _ attributes marker hsome anchor reader impl c
      hread =>
    obtain ⟨htrees, hattributes, -⟩ := Attribute.leading_eq hleading
    rw [htrees] at hformed ⊢
    obtain ⟨m, hm⟩ := foldlM_marked hattributes hformed hsome hg f
    exact ⟨m, by rw [hm, Found.isEmpty_append]; simp [Found.isEmpty]⟩
  | case5 tree rest first others after hleading _ attributes marker hsome anchor reader failure c
      hread =>
    obtain ⟨htrees, hattributes, -⟩ := Attribute.leading_eq hleading
    rw [htrees] at hformed ⊢
    obtain ⟨m, hm⟩ := foldlM_marked hattributes hformed hsome hg f
    exact ⟨m, by rw [hm, Found.isEmpty_append]; simp [Found.isEmpty]⟩

/-- Behind a closing angle bracket nothing has been begun. -/
theorem idle_of_angle {attrName : String} {contents : List Token.Content} {s s' : MarkScan}
    {t : Token} (ht : t.isPunct ">" = true)
    (h : (contents ++ [t.content]).foldlM (next attrName) s = some s') : s'.mode = .idle := by
  rw [List.foldlM_append] at h
  obtain ⟨middle, -, hlast⟩ := Option.bind_eq_some_iff.1 h
  rw [List.foldlM_cons] at hlast
  obtain ⟨_, hnext, hend⟩ := Option.bind_eq_some_iff.1 hlast
  cases hend
  have hcontent : t.content = (.punct, ['>']) := content_eq_punct_iff.2 ht
  obtain ⟨groups, -, rfl⟩ := Option.map_eq_some_iff.1 hnext
  rw [hcontent]
  split
  · simp [Mode.outside]
  · cases middle.mode <;> simp [Mode.inside]

/-! ### Texts -/

open NestingScan

section
variable {attrName : String} {Ends : MarkScan → List Char → Prop} {f : Bool} {rest : List Char}

/-- What opens and closes nothing outside is passed over where a text is not searched. -/
theorem completes_inert {outer groups : List Delimiter} {text : List Char}
    (houter : isSearched outer = false)
    (h : Completes nests (fun groups text => Completes (next attrName) Ends
      ⟨groups ++ outer, .idle, f⟩ text) groups text) :
    Completes (next attrName) Ends ⟨groups ++ outer, .idle, f⟩ text := by
  induction h with
  | ends hends => exact hends
  | blank hc _ ih => exact .blank hc ih
  | comment hstep hkind _ ih => exact .comment hstep hkind ih
  | @token groups behind kind lexeme rest hstep hkind hnext _ ih =>
    have hsearched : isSearched (groups ++ outer) = false := by
      rw [isSearched_append, houter, Bool.and_false]
    refine .token hstep hkind ?_ ih
    rw [next_idle (by simp [hsearched]), groupsBehind_outer hnext outer]
    rfl

/-- A text that is scanned to its end is balanced if nothing is open then. -/
theorem completes_nests {P : MarkScan → Prop} {s : MarkScan} {text : List Char}
    (h : Completes (next attrName) (AtEnd P) s text) (hP : ∀ s, P s → s.groups = []) :
    Completes nests (AtEnd (· = [])) s.groups text := by
  induction h with
  | @ends s text hends => exact .ends ⟨hends.1, hP s hends.2⟩
  | blank hc _ ih => exact .blank hc ih
  | comment hstep hkind _ ih => exact .comment hstep hkind ih
  | token hstep hkind hnext _ ih => exact .token hstep hkind (nests_of_next hnext) ih

theorem mem_of_fixedContents {fuel : Nat} {text : List Char} {contents : List Token.Content}
    (h : fixedContents fuel text = some contents) : ∀ content ∈ contents,
      Terminal.next? content.2 = some (content.1, content.2, []) ∧ content.2 ⊆ text := by
  fun_induction fixedContents fuel text generalizing contents with
  | case1 =>
    cases h
    simp
  | case2 => cases h
  | case3 fuel c text hc ih =>
    exact fun content hmem =>
      ⟨(ih h content hmem).1,
        List.Subset.trans (ih h content hmem).2 (List.subset_cons_self c text)⟩
  | case4 fuel c text hc kind lexeme back hnext hfixed ih =>
    obtain ⟨contents, hcontents, rfl⟩ := Option.map_eq_some_iff.1 h
    have htext := (Terminal.next?_sound hnext).1
    have halone := hnext
    rw [← htext] at halone
    refine List.forall_mem_cons.2 ⟨⟨(Terminal.next?_append_iff.1 halone).1, ?_⟩, ?_⟩
    · rw [← htext]
      exact List.subset_append_left _ _
    · intro content hmem
      obtain ⟨hlexeme, hsubset⟩ := ih hcontents content hmem
      refine ⟨hlexeme, List.Subset.trans hsubset ?_⟩
      rw [← htext]
      exact List.subset_append_right _ _
  | case5 => cases h
  | case6 => cases h

/-- A text of fixed tokens without hash signs and square brackets. -/
def isQuiet (text : String) : Bool :=
  text.toList.all (fun c => c != '#' && c != '[') &&
    (fixedContents text.toList.length text.toList).any (! ·.isEmpty)

theorem completes_text {outer : List Delimiter} (front : List Delimiter) (text : String)
    (behind : List Delimiter) (h : opensBehind front text = some behind)
    (hquiet : isQuiet text = true) {m : Mode} (hm : m.IsResting)
    (hrest : Completes (next attrName) Ends ⟨behind ++ outer, .idle, f⟩ rest) :
    Completes (next attrName) Ends ⟨front ++ outer, m, f⟩ (text.toList ++ rest) := by
  obtain ⟨contents, hcontents, hrun⟩ := Option.bind_eq_some_iff.1 h
  rw [isQuiet, hcontents, Option.any_some, Bool.and_eq_true, List.all_eq_true] at hquiet
  obtain ⟨hchars, hne⟩ := hquiet
  have hmem := mem_of_fixedContents hcontents
  have hhash : ∀ content ∈ contents, content ≠ (.punct, ['#']) := by
    rintro content hcontent rfl
    simpa using hchars '#' ((hmem _ hcontent).2 List.mem_cons_self)
  have hbracket : ∀ content ∈ contents, content.1 ≠ .opener .bracket := by
    rintro ⟨kind, lexeme⟩ hcontent rfl
    obtain ⟨hlexeme, hsubset⟩ := hmem _ hcontent
    have htext : Terminal.IsLexeme (.opener .bracket) (String.ofList lexeme) := by
      rw [Terminal.IsLexeme, String.toList_ofList]
      exact hlexeme
    have hchars' : lexeme = ['['] := by
      have htoList := congrArg String.toList htext.eq_openText
      rwa [String.toList_ofList] at htoList
    simpa using hchars '[' (hsubset (hchars' ▸ List.mem_cons_self))
  refine hrest.fixed hcontents ?_
  cases contents with
  | nil => cases hne
  | cons content contents =>
    rw [List.foldlM_cons, next_resting hm (hbracket content List.mem_cons_self),
      ← List.foldlM_cons]
    exact foldlM_quiet (foldlM_nests_outer hrun outer) hhash attrName f

end

end MarkScan

namespace ImplBlock

/-- Whether a search finds anything in the head of the block. -/
def marksHead (attrName : String) (impl : ImplBlock) : Bool :=
  [impl.generics, impl.selfType.trees, impl.whereClause].any
    fun trees => !(Found.inTrees attrName trees).isEmpty

/-- Whether the block has the attribute among those that it keeps, or in its head. -/
def leavesMark (attrName : String) (impl : ImplBlock) : Bool :=
  impl.attributes.any (·.name == attrName) || impl.marksHead attrName

end ImplBlock
end LuaBindings
