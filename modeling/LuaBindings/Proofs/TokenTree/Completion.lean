import LuaBindings.Proofs.Token.Sealing

/-!
# Texts that are read to an end

A text is told token by token to something that goes from state to state (`Completes`), for
example to the groups that are open. A text that closes just what it opens has trees
(`Completes.exists_trees`). A sealed text is told as it stands in front of any text that joins on
behind it (`Sealed.completes`).
-/

set_option autoImplicit false

namespace LuaBindings

/-- The groups that are open behind a token of a kind, innermost first, if it closes none but
the innermost. -/
def TokenKind.groupsBehind (groups : List Delimiter) : TokenKind → Option (List Delimiter)
  | .opener d => some (d :: groups)
  | .closer d =>
    match groups with
    | e :: rest => if e = d then some rest else none
    | [] => none
  | _ => some groups

theorem TokenKind.groupsBehind_plain {kind : TokenKind} (h : kind.isDelimiter = false)
    (groups : List Delimiter) : kind.groupsBehind groups = some groups := by
  cases kind with
  | opener d => cases h
  | closer d => cases h
  | _ => rfl

def nest (groups : List Delimiter) : List TokenKind → Option (List Delimiter)
  | [] => some groups
  | kind :: kinds => (kind.groupsBehind groups).bind fun groups => nest groups kinds

section
variable {groups groups' : List Delimiter} {kinds : List TokenKind}

theorem nest_append (groups : List Delimiter) (kinds more : List TokenKind) :
    nest groups (kinds ++ more) = (nest groups kinds).bind fun groups => nest groups more := by
  induction kinds generalizing groups with
  | nil => rfl
  | cons kind kinds ih =>
    rw [List.cons_append, nest, nest, Option.bind_assoc]
    exact Option.bind_congr fun groups _ => ih groups

theorem nest_plain {kind : TokenKind} (h : kind.isDelimiter = false) (groups : List Delimiter)
    (kinds : List TokenKind) : nest groups (kind :: kinds) = nest groups kinds := by
  rw [nest, TokenKind.groupsBehind_plain h, Option.bind_some]

/-- Well nested tokens leave the open groups as they are. -/
theorem WellNested.nest_eq {tokens : List Token} (h : WellNested tokens)
    (groups : List Delimiter) : nest groups (tokens.map Token.kind) = some groups := by
  induction h generalizing groups with
  | nil => rfl
  | plain hplain _ ih => rw [List.map_cons, nest_plain hplain, ih]
  | @group d opener closer inner rest hopen _ hclose _ ihinner ihrest =>
    rw [List.map_cons, List.map_append, List.map_cons, nest, hopen, TokenKind.groupsBehind,
      Option.bind_some, nest_append, ihinner, Option.bind_some, nest, hclose,
      TokenKind.groupsBehind, if_pos rfl, Option.bind_some, ihrest]

/-- What does not touch the outer groups does the same whatever they are. -/
theorem nest_outer (h : nest groups kinds = some groups') (outer : List Delimiter) :
    nest (groups ++ outer) kinds = some (groups' ++ outer) := by
  induction kinds generalizing groups with
  | nil =>
    cases h
    rfl
  | cons kind kinds ih =>
    obtain ⟨middle, hkind, hrest⟩ := Option.bind_eq_some_iff.1 h
    have hbehind : kind.groupsBehind (groups ++ outer) = some (middle ++ outer) := by
      cases kind with
      | closer d =>
        cases groups with
        | nil => cases hkind
        | cons e groups =>
          simp only [TokenKind.groupsBehind, List.cons_append] at hkind ⊢
          split at hkind
          · cases hkind
            rw [if_pos (by assumption)]
          · cases hkind
      | _ =>
        cases hkind
        rfl
    rw [nest, hbehind, Option.bind_some]
    exact ih hrest

end

/-- Tokens that close just the open groups have trees. -/
theorem TokenTree.exists_build {groups : List OpenGroup} {done : List TokenTree} {last : Location}
    {tokens : List Token}
    (h : nest (groups.map OpenGroup.delimiter) (tokens.map Token.kind) = some []) :
    ∃ trees, build groups done last tokens = .ok trees := by
  induction tokens generalizing groups done last with
  | nil =>
    have hnone : groups = [] := List.map_eq_nil_iff.1 (Option.some.inj h)
    rw [hnone]
    exact ⟨_, rfl⟩
  | cons t tokens ih =>
    rw [List.map_cons, nest] at h
    obtain ⟨behind, hkind, hrest⟩ := Option.bind_eq_some_iff.1 h
    cases hcase : t.kind with
    | opener d =>
      rw [hcase] at hkind
      cases hkind
      rw [build_opener hcase]
      exact ih hrest
    | closer d =>
      rw [hcase] at hkind
      cases groups with
      | nil => cases hkind
      | cons g groups =>
        rw [List.map_cons, TokenKind.groupsBehind] at hkind
        split at hkind
        · rename_i hd
          cases hkind
          rw [build_closer (hd ▸ hcase)]
          exact ih hrest
        · cases hkind
    | _ =>
      have hplain : t.kind.isDelimiter = false := by
        rw [hcase]
        rfl
      rw [TokenKind.groupsBehind_plain hplain] at hkind
      cases hkind
      rw [build_plain hplain]
      exact ih hrest

/-- The groups that are open behind a token. -/
def nests (groups : List Delimiter) (content : Token.Content) : Option (List Delimiter) :=
  content.1.groupsBehind groups

theorem foldlM_nests (groups : List Delimiter) (contents : List Token.Content) :
    contents.foldlM nests groups = nest groups (contents.map Prod.fst) := by
  induction contents generalizing groups with
  | nil => rfl
  | cons content contents ih =>
    rw [List.foldlM_cons, List.map_cons, nest]
    exact Option.bind_congr fun groups _ => ih groups

theorem foldlM_nests_tokens (groups : List Delimiter) (tokens : List Token) :
    (tokens.map Token.content).foldlM nests groups = nest groups (tokens.map Token.kind) := by
  rw [foldlM_nests, List.map_map]
  rfl

theorem TokenTree.Formed.foldlM_nests {trees : List TokenTree} (h : Formed trees)
    (groups : List Delimiter) :
    ((flatten trees).map Token.content).foldlM nests groups = some groups := by
  rw [foldlM_nests_tokens]
  exact h.wellNested.nest_eq groups

namespace NestingScan

open Terminal

/-- Told to `next` from the state on, the tokens of the text that carry meaning are accepted up to
a place where `Ends` holds. -/
inductive Completes {σ : Type} (next : σ → Token.Content → Option σ) (Ends : σ → List Char → Prop) :
    σ → List Char → Prop
  | ends {s : σ} {text : List Char} : Ends s text → Completes next Ends s text
  | blank {c : Char} {s : σ} {text : List Char} : isSpace c = true →
    Completes next Ends s text → Completes next Ends s (c :: text)
  | comment {s : σ} {kind : TokenKind} {lexeme rest : List Char} :
    step (lexeme ++ rest) = .token kind lexeme rest → kind.isTrivia = true →
    Completes next Ends s rest → Completes next Ends s (lexeme ++ rest)
  | token {s behind : σ} {kind : TokenKind} {lexeme rest : List Char} :
    step (lexeme ++ rest) = .token kind lexeme rest → kind.isTrivia = false →
    next s (kind, lexeme) = some behind →
    Completes next Ends behind rest → Completes next Ends s (lexeme ++ rest)

/-- At the end of the text, in a state with the property. -/
def AtEnd {σ : Type} (P : σ → Prop) (s : σ) (text : List Char) : Prop := text = [] ∧ P s

section
variable {σ : Type} {next : σ → Token.Content → Option σ} {Ends : σ → List Char → Prop}
  {s behind : σ} {text rest : List Char}

namespace Completes

theorem significant {P : σ → Prop} (h : Completes next (AtEnd P) s text) (here : Location) :
    (scanFrom here text).fault = none ∧ ∃ last,
      ((scanFrom here text).significant.map Token.content).foldlM next s = some last ∧
        P last := by
  induction h generalizing here with
  | @ends s text h =>
    obtain ⟨rfl, h⟩ := h
    have hend : step [] = .stuck := rfl
    rw [scanFrom_stuck hend]
    exact ⟨rfl, s, rfl, h⟩
  | @blank c s text hc _ ih =>
    have hspace : ∀ d ∈ [c], isSpace d = true := by simpa using hc
    have hskip := extends_blanks hspace here text
    rw [← List.singleton_append, hskip.fault, hskip.significant]
    exact ih _
  | @comment s kind lexeme rest hstep htrivia _ ih =>
    rw [scanFrom_token hstep, NestingScan.significant,
      List.filter_cons_of_neg (by simp [htrivia])]
    exact ih _
  | @token s behind kind lexeme rest hstep htrivia hnext _ ih =>
    rw [scanFrom_token hstep, NestingScan.significant,
      List.filter_cons_of_pos (by simp [htrivia]), List.map_cons, List.foldlM_cons, Token.content,
      String.toList_ofList, hnext]
    exact ih _

/-- Behind the token that it begins with, the text goes on to its end. -/
theorem of_step {P : σ → Prop} {kind : TokenKind} {lexeme : List Char}
    (h : Completes next (AtEnd P) s text) (hstep : step text = .token kind lexeme rest)
    (hkind : kind.isTrivia = false) :
    ∃ behind, next s (kind, lexeme) = some behind ∧ Completes next (AtEnd P) behind rest := by
  cases h with
  | ends hends =>
    rw [hends.1] at hstep
    cases hstep
  | @blank c _ text hc _ =>
    have hnext := next?_of_step hstep (by rintro rfl; cases hkind)
    rw [next?_blank hc] at hnext
    cases hnext
    cases hkind
  | comment hstep' htrivia _ =>
    cases hstep'.symm.trans hstep
    rw [hkind] at htrivia
    cases htrivia
  | token hstep' _ hnext hrest =>
    cases hstep'.symm.trans hstep
    exact ⟨_, hnext, hrest⟩

/-- A text that leaves nothing open has trees. -/
theorem exists_trees (h : Completes nests (AtEnd (· = [])) [] text) :
    ∃ trees, TokenTree.ofText text = .ok trees := by
  obtain ⟨hfault, _, hnest, rfl⟩ := h.significant .first
  rw [foldlM_nests_tokens] at hnest
  rw [TokenTree.ofText_eq, outcome, ofText, hfault]
  have hbuild : nest (([] : List TokenTree.OpenGroup).map TokenTree.OpenGroup.delimiter)
      ((ofText text).significant.map Token.kind) = some [] := hnest
  exact TokenTree.exists_build hbuild

theorem blanks {blanks : List Char} (h : Completes next Ends s text)
    (hblanks : ∀ c ∈ blanks, isSpace c = true) : Completes next Ends s (blanks ++ text) := by
  induction blanks with
  | nil => exact h
  | cons c blanks ih =>
    obtain ⟨hc, hrest⟩ := List.forall_mem_cons.1 hblanks
    exact .blank hc (ih hrest)

/-- A token that is taken in front of the rest. -/
theorem lexeme (h : Completes next Ends behind rest) (kind : TokenKind) (lexeme : List Char)
    (halone : next? lexeme = some (kind, lexeme, [])) (hkind : kind.isTrivia = false)
    (hfollows : Follows kind lexeme rest) (hnext : next s (kind, lexeme) = some behind) :
    Completes next Ends s (lexeme ++ rest) :=
  .token (step_of_next? (next?_of_follows halone hfollows) (by rintro rfl; cases hkind)) hkind
    hnext h

end Completes

/-- What is cut without a fault completes what its tokens do. -/
theorem Cut.completes {here : Location} {tokens : List Token}
    (h : Cut here text tokens none)
    (hrun : ((tokens.filter fun t => !t.kind.isTrivia).map Token.content).foldlM next s =
      some behind) (hend : Ends behind []) : Completes next Ends s text := by
  generalize hfault : (none : Option Diagnostic) = fault at h
  induction h generalizing s with
  | @stuck here text hstep =>
    cases text with
    | nil =>
      cases hrun
      exact .ends hend
    | cons c text => cases hfault
  | unterminated => cases hfault
  | @token here kind lexeme rest tokens fault hstep _ ih =>
    cases htrivia : kind.isTrivia with
    | true =>
      rw [List.filter_cons_of_neg (by simp [htrivia])] at hrun
      exact .comment hstep htrivia (ih hrun hfault)
    | false =>
      rw [List.filter_cons_of_pos (by simp [htrivia]), List.map_cons, List.foldlM_cons,
        Token.content, String.toList_ofList] at hrun
      obtain ⟨middle, hnext, hrest⟩ := Option.bind_eq_some_iff.1 hrun
      exact .token hstep htrivia hnext (ih hrest hfault)

/-! ### What may come behind any token -/

/-- The text may come behind any token that is not left open. Where two tokens become one at the
seam, it is accepted like the two. -/
structure Joins (next : σ → Token.Content → Option σ) (Ends : σ → List Char → Prop) (s : σ)
    (text : List Char) : Prop where
  completes : Completes next Ends s text
  behind {before : σ} {kind : TokenKind} {lexeme : List Char} : kind.isTrivia = false →
    kind.isDelimiter = false → next? lexeme = some (kind, lexeme, []) →
    (kind = .string → isFirm lexeme = true) → next before (kind, lexeme) = some s →
    Completes next Ends before (lexeme ++ text)
  /-- Behind `r#` a name would become a raw one. -/
  behindHash {before : σ} : [(.ident, ['r']), (.punct, ['#'])].foldlM next before = some s →
    Completes next Ends before ('r' :: '#' :: text)
  fence : opensFence text = false
  digit : ∀ c ∈ text.head?, c.isDigit = false
  mark : ∀ c ∈ text.head?, (c == '\'') = false

/-- A hash sign behind `r`, which begins neither a raw literal nor a raw name there. -/
theorem Completes.behind_hash {before : σ} (h : Completes next Ends s text)
    (hnext : [(.ident, ['r']), (.punct, ['#'])].foldlM next before = some s)
    (hmark : Follows .punct ['#'] text) (hfenced : fenced ('#' :: text) = none)
    (hraw : rawName ('r' :: '#' :: text) = none) :
    Completes next Ends before ('r' :: '#' :: text) := by
  obtain ⟨middle, hfirst, hnext⟩ := Option.bind_eq_some_iff.1 hnext
  obtain ⟨_, hsecond, hlast⟩ := Option.bind_eq_some_iff.1 hnext
  cases hlast
  have hhash : Completes next Ends middle ('#' :: text) :=
    h.lexeme .punct ['#'] rfl rfl hmark hsecond
  have hname : Follows .ident ['r'] ('#' :: text) := by
    refine ⟨?_, fun _ => ⟨hfenced, hraw⟩, fun _ => hfenced, ?_⟩
    · rintro _ ⟨⟩
      decide
    · rintro ⟨⟩
  exact hhash.lexeme .ident ['r'] rfl rfl hname hfirst

theorem Completes.joins_of_follows (h : Completes next Ends s text)
    (hfollows : ∀ kind lexeme, kind.isTrivia = false →
      (kind = .string → isFirm lexeme = true) → Follows kind lexeme text)
    (hfence : opensFence text = false) (hname : plainName text = none)
    (hdigit : ∀ c ∈ text.head?, c.isDigit = false)
    (hmark : ∀ c ∈ text.head?, (c == '\'') = false) : Joins next Ends s text where
  completes := h
  behind htrivia _ halone hfirm hnext :=
    h.lexeme _ _ halone htrivia (hfollows _ _ htrivia hfirm) hnext
  behindHash hnext := h.behind_hash hnext (hfollows .punct ['#'] rfl (by decide))
    (fenced_eq_none_of_opensFence hfence) (prepend_eq_none_iff.2 hname)
  fence := hfence
  digit := hdigit
  mark := hmark

theorem Completes.joins_of_bounded (h : Completes next Ends s text) (hbounded : Bounded text) :
    Joins next Ends s text := by
  refine h.joins_of_follows (fun _ _ hkind hfirm => follows_of_bounded hkind hfirm hbounded)
    ?_ ?_ ?_ ?_
  · cases text with
    | nil => rfl
    | cons c text =>
      exact opensFence_cons (hbounded.ne (by decide) c rfl) (hbounded.ne (by decide) c rfl) text
  · cases text with
    | nil => rfl
    | cons c text =>
      refine plainName_eq_none ?_
      have hc := hbounded.not_name c rfl
      by_contra hstart
      rw [isNameChar_of_isNameStart ((Bool.not_eq_false _).mp hstart)] at hc
      cases hc
  · intro c hc
    have hname := hbounded.not_name c hc
    rw [isNameChar, Bool.or_eq_false_iff, Char.isAlphanum, Bool.or_eq_false_iff] at hname
    exact hname.1.2
  · exact fun c hc => beq_false_of_ne (hbounded.ne (by decide) c hc)

/-- A hash sign that opens no fence and is followed by no name. -/
theorem Completes.joins_hash (h : Completes next Ends s ('#' :: rest))
    (hfence : opensFence rest = false) (hname : plainName rest = none) :
    Joins next Ends s ('#' :: rest) := by
  have hhead : ∀ c ∈ ('#' :: rest).head?, isNameChar c = false := by simp; decide
  have hfenced : fenced ('#' :: rest) = none := fenced_eq_none_of_opensFence hfence
  have hraw : rawName ('r' :: '#' :: rest) = none := prepend_eq_none_iff.2 hname
  have hpairs : ∀ pair ∈ punctPairs, pair.2 ≠ '#' := by decide
  refine h.joins_of_follows (fun kind lexeme hkind hfirm => ?_) hfence rfl (by simp) (by simp)
  refine follows_of_head hkind hfirm (fun _ => hhead) (fun _ => ?_) (fun _ c _ d hd hpair => ?_)
    (by simp) (by simp) (by simp) (by simp)
  · exact ⟨hhead, fun _ => ⟨hfenced, hraw⟩, fun _ => hfenced,
      fun _ => ⟨string_prefix_eq_none (by simp), char_eq_none (by decide) (by simp)⟩⟩
  · exact hpairs _ hpair (Option.some.inj hd).symm

theorem follows_angle {kind : TokenKind} {lexeme : List Char} (hkind : kind.isTrivia = false)
    (hfirm : kind = .string → isFirm lexeme = true)
    (hpairs : kind = .punct → ∀ c, lexeme = [c] → (c, '>') ∉ punctPairs) :
    Follows kind lexeme ('>' :: rest) := by
  have hhead : ∀ c ∈ ('>' :: rest).head?, isNameChar c = false := by simp; decide
  refine follows_of_head hkind hfirm (fun _ => hhead) (fun _ => ?_) (fun hpunct c hc d hd => ?_)
    (by simp) (by simp) (by simp) (by simp)
  · exact follows_ident lexeme hhead (by simp) (by simp) (by simp)
  · cases hd
    exact hpairs hpunct c hc

/-- A closing angle bracket makes an arrow of some marks in front of it, and opens and closes
nothing. -/
theorem Completes.joins_angle {groups : List Delimiter} {Ends : List Delimiter → List Char → Prop}
    (h : Completes nests Ends groups rest) : Joins nests Ends groups ('>' :: rest) := by
  have hangle : next? ['>'] = some (.punct, ['>'], []) := rfl
  have hends : Follows .punct ['>'] rest := by
    refine ⟨fun c hc d _ hpair => ?_, by rintro ⟨⟩⟩
    cases hc
    simp [punctPairs] at hpair
  have hcompletes := h.lexeme (s := groups) .punct ['>'] hangle rfl hends rfl
  constructor
  case completes => exact hcompletes
  case behind =>
    intro before kind lexeme htrivia hdelimiter halone hfirm hnext
    have hsame : before = groups := by
      rw [nests, TokenKind.groupsBehind_plain hdelimiter] at hnext
      exact Option.some.inj hnext
    subst hsame
    by_cases hpair : kind = .punct ∧ ∃ c, lexeme = [c] ∧ (c, '>') ∈ punctPairs
    · obtain ⟨rfl, c, rfl, hpair⟩ := hpair
      have hmerged : next? [c, '>'] = some (.punct, [c, '>'], []) := by
        simp only [punctPairs, List.mem_cons, Prod.mk.injEq, List.not_mem_nil, or_false] at hpair
        rcases hpair with ⟨-, hcolon⟩ | ⟨rfl, -⟩ | ⟨rfl, -⟩
        · cases hcolon
        · rfl
        · rfl
      have harrow : Follows .punct [c, '>'] rest := by
        constructor
        · rintro _ ⟨⟩
        · rintro ⟨⟩
      exact h.lexeme .punct [c, '>'] hmerged rfl harrow rfl
    · exact hcompletes.lexeme kind lexeme halone htrivia
        (follows_angle htrivia hfirm fun hpunct c hc hmem => hpair ⟨hpunct, c, hc, hmem⟩) hnext
  case behindHash =>
    intro before hnext
    refine hcompletes.behind_hash hnext (follows_angle rfl (by decide) fun _ c hc => ?_) rfl rfl
    cases hc
    decide
  case fence => rfl
  case digit => simp
  case mark => simp

/-- No name goes on in the text, and none becomes the front of a literal there. -/
def Breaks (text : List Char) : Prop :=
  ∀ c ∈ text.head?, isNameChar c = false ∧ c ∉ ['#', '"', '\'']

theorem Breaks.follows (h : Breaks rest) (lexeme : List Char) : Follows .ident lexeme rest := by
  refine follows_ident lexeme (fun c hc => (h c hc).1) ?_ ?_ ?_
  all_goals
    rintro c hc rfl
    exact absurd (h _ hc).2 (by decide)

theorem Completes.ident {name : List Char} (h : Completes next Ends behind rest)
    (hbreaks : Breaks rest) (hname : next? name = some (.ident, name, []))
    (hnext : next s (.ident, name) = some behind) : Completes next Ends s (name ++ rest) :=
  h.lexeme .ident name hname rfl (hbreaks.follows name) hnext

/-- A name goes on with the names, lifetimes and numbers in front of it. -/
theorem Completes.joins_name {name : List Char} (h : Completes next Ends behind rest)
    (hbreaks : Breaks rest) (hpoint : ∀ c ∈ rest.head?, c ≠ '.') (hname : isName name = true)
    (hnext : next s (.ident, name) = some behind)
    (hmerged : ∀ before, ∀ kind ∈ [.ident, .lifetime, .number], ∀ lexeme,
      next before (kind, lexeme) = some s → next before (kind, lexeme ++ name) = some behind)
    (hraw : ∀ before, [(.ident, ['r']), (.punct, ['#'])].foldlM next before = some s →
      next before (.ident, 'r' :: '#' :: name) = some behind) :
    Joins next Ends s (name ++ rest) := by
  obtain ⟨c, more, rfl, hc, hmore⟩ := exists_of_isName hname
  have hchar := isNameChar_of_isNameStart hc
  have hall : (c :: more).all isNameChar = true := by
    rw [List.all_cons, hchar]
    exact List.all_eq_true.2 hmore
  have hmark {mark : Char} (hmark : isNameChar mark = false) : c ≠ mark := by
    rintro rfl
    rw [hchar] at hmark
    cases hmark
  have hdigit : c.isDigit = false := by
    by_contra hdigit
    rw [isNameStart_eq_false_of_isDigit ((Bool.not_eq_false _).mp hdigit)] at hc
    cases hc
  have halone := next?_ident_iff.2 (.inr hname)
  have hcompletes := h.ident hbreaks halone hnext
  refine ⟨hcompletes, fun {before kind lexeme} htrivia hdelimiter hlexeme hfirm hbefore => ?_,
    fun {before} hbefore => ?_, opensFence_cons (hmark (by decide)) (hmark (by decide)) _,
    by simpa using hdigit, by simpa using hmark (by decide)⟩
  · by_cases hkind : kind ∈ [.ident, .lifetime, .number]
    · have htaken := next?_name_append hkind hlexeme hall
      rw [← List.append_assoc]
      refine h.lexeme kind _ htaken htrivia ?_ (hmerged before kind hkind lexeme hbefore)
      simp only [List.mem_cons, List.not_mem_nil, or_false] at hkind
      rcases hkind with rfl | rfl | rfl
      · exact hbreaks.follows _
      · refine ⟨fun d hd => (hbreaks d hd).1, fun _ d hd => ?_⟩
        rintro rfl
        exact absurd (hbreaks _ hd).2 (by decide)
      · exact ⟨fun d hd => (hbreaks d hd).1, fun _ => fraction_eq_none hpoint⟩
    · refine hcompletes.lexeme kind lexeme hlexeme htrivia ?_ hbefore
      have hpairs : ∀ pair ∈ punctPairs, isNameChar pair.2 = false := by decide
      refine follows_of_head htrivia hfirm (absurd · hkind) ?_ (fun _ d _ e he hpair => ?_)
        (by simpa using hmark (by decide)) (by simpa using hmark (by decide))
        (by simpa using hmark (by decide)) (by simpa using hmark (by decide))
      · rintro rfl
        exact absurd (by decide) hkind
      · cases he
        exact hmark (hpairs _ hpair) rfl
  · have htaken : next? ('r' :: '#' :: c :: more) = some (.ident, 'r' :: '#' :: c :: more, []) :=
      next?_ident_iff.2 (.inl ⟨_, rfl, hname⟩)
    exact h.ident hbreaks htaken (hraw before hbefore)

/-! ### Sealed texts -/

theorem Sealed.contents_eq_nil {old : List Char} {contents : List Token.Content}
    (h : Sealed [] old contents) : contents = [] := by
  generalize hfront : ([] : List Char) = front at h
  cases h with
  | nil => rfl
  | blank => cases hfront
  | lineComment hnext => exact absurd (List.append_eq_nil_iff.1 hfront.symm).1 (next?_sound hnext).2
  | blockComment hnested =>
    exact absurd (List.append_eq_nil_iff.1 hfront.symm).1 (nestedComment_sound _ _ _ hnested).2
  | token _ hnext => exact absurd (List.append_eq_nil_iff.1 hfront.symm).1 (next?_sound hnext).2

/-- A hash sign on its own is a token. -/
theorem Sealed.contents_hash {old : List Char} {contents : List Token.Content}
    (h : Sealed ['#'] old contents) : contents = [(.punct, ['#'])] := by
  generalize hfront : ['#'] = front at h
  cases h with
  | nil => cases hfront
  | blank hc =>
    cases hfront
    exact absurd hc (by decide)
  | lineComment hnext hne =>
    rcases List.append_eq_singleton_iff.1 hfront.symm with ⟨hnil, -⟩ | ⟨-, hnil⟩
    · exact absurd hnil (next?_sound hnext).2
    · exact absurd hnil hne
  | blockComment hnested =>
    rcases List.append_eq_singleton_iff.1 hfront.symm with ⟨hnil, -⟩ | ⟨rfl, -⟩
    · exact absurd hnil (nestedComment_sound _ _ _ hnested).2
    · cases nestedComment_head hnested
  | token _ hnext _ hsealed =>
    rcases List.append_eq_singleton_iff.1 hfront.symm with ⟨hnil, -⟩ | ⟨rfl, rfl⟩
    · exact absurd hnil (next?_sound hnext).2
    · have halone := (next?_append_iff.1 hnext).1
      cases halone
      rw [hsealed.contents_eq_nil]
      rfl

/-- A sealed text is told in front of what joins on behind it. -/
theorem Sealed.completes {front old new : List Char} {contents : List Token.Content}
    (h : Sealed front old contents) (hrun : contents.foldlM next s = some behind)
    (hnew : Joins next Ends behind new) : Completes next Ends s (front ++ new) := by
  induction h generalizing s with
  | nil =>
    cases hrun
    exact hnew.completes
  | blank hc _ ih => exact .blank hc (ih hrun)
  | @lineComment lexeme front old contents hnext hne hsealed ih =>
    obtain ⟨halone, hfollows⟩ := next?_append_iff.1 hnext
    rw [List.append_assoc]
    refine .comment (step_of_next? (next?_of_follows halone ?_) nofun) rfl (ih hrun)
    change ∀ c ∈ (front ++ old).head?, _ at hfollows
    rw [List.head?_append_of_ne_nil _ hne] at hfollows
    change ∀ c ∈ (front ++ new).head?, _
    rwa [List.head?_append_of_ne_nil _ hne]
  | @blockComment lexeme front old contents hnested hsealed ih =>
    rw [List.append_assoc]
    exact .comment (step_of_nestedComment (nestedComment_keeps _ hnested)) rfl (ih hrun)
  | @token kind lexeme front old contents hkind hnext hshut hsealed ih =>
    obtain ⟨halone, hfollows⟩ := next?_append_iff.1 hnext
    rw [List.foldlM_cons] at hrun
    obtain ⟨middle, hmiddle, hrest⟩ := Option.bind_eq_some_iff.1 hrun
    rw [List.append_assoc]
    by_cases hne : front = []
    · -- the last token, which the new text comes behind
      subst hne
      rw [hsealed.contents_eq_nil] at hrest
      cases hrest
      cases hdelimiter : kind.isDelimiter with
      | true =>
        refine hnew.completes.lexeme kind lexeme halone hkind ?_ hmiddle
        cases kind with
        | opener d => trivial
        | closer d => trivial
        | _ => cases hdelimiter
      | false =>
        refine hnew.behind hkind hdelimiter halone ?_ hmiddle
        rintro rfl
        exact hshut
    · by_cases hraw : lexeme = ['r'] ∧ front = ['#']
      · obtain ⟨rfl, rfl⟩ := hraw
        cases halone
        rw [hsealed.contents_hash] at hrest
        refine hnew.behindHash ?_
        rw [List.foldlM_cons, hmiddle]
        exact hrest
      · refine (ih hrest).lexeme kind lexeme halone hkind ?_ hmiddle
        refine follows_of_shut hne hfollows hshut hnew.fence hnew.digit
          (fun hr hhash => hraw ⟨hr, hhash⟩) fun _ hchar => ?_
        exact hsealed.char_eq_none hne hchar hnew.mark

end
end NestingScan
end LuaBindings
