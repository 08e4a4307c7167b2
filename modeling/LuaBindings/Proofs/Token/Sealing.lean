import LuaBindings.Proofs.Token.Renaming
import LuaBindings.Proofs.Token.Writing
import LuaBindings.Proofs.TokenTree.OpenComments

/-!
# Texts in which nothing is left open

A token is shut if what comes far behind it does not move its end. In a text that closes what
it opens all tokens are shut (`Closed.allShut`), and so are they where a run of them is laid out
anew (`Spells.sealed`). A sealed text may go on in another way than it did.
-/

set_option autoImplicit false

namespace LuaBindings

/-- What there is to a token but its place. -/
abbrev Token.Content : Type := TokenKind × List Char

def Token.content (t : Token) : Token.Content := (t.kind, t.text.toList)

namespace Terminal

def opensFence : List Char → Bool
  | '"' :: _ => true
  | '#' :: rest => opensFence rest
  | _ => false

def opensRaw : List Char → Bool
  | 'b' :: 'r' :: rest => opensFence rest
  | 'r' :: rest => opensFence rest
  | _ => false

/-- What comes behind the next few characters does not move the end of the lexeme. -/
def Shut (kind : TokenKind) (lexeme rest : List Char) : Prop :=
  match kind with
  | .string => isFirm lexeme = true
  | .punct => lexeme = ['/'] → ∀ c ∈ rest.head?, (c == '*') = false
  | .ident =>
    (lexeme = ['r'] ∨ lexeme = ['b', 'r'] → opensFence rest = false) ∧
      (lexeme = ['b'] → ∀ c ∈ rest.head?, (c == '"') = false)
  | _ => True

section
variable {front old new text : List Char}

theorem opensFence_cons {c : Char} (hquote : c ≠ '"') (hhash : c ≠ '#') (text : List Char) :
    opensFence (c :: text) = false := by
  simp [opensFence, hquote, hhash]

theorem opensFence_hashes {hashes : List Char} (h : ∀ c ∈ hashes, (c == '#') = true)
    (text : List Char) : opensFence (hashes ++ text) = opensFence text := by
  induction hashes with
  | nil => rfl
  | cons c hashes ih =>
    obtain ⟨hc, hrest⟩ := List.forall_mem_cons.1 h
    rw [eq_of_beq hc]
    exact ih hrest

theorem fenced_eq_none_of_opensFence (h : opensFence text = false) : fenced text = none := by
  unfold fenced
  split
  · rename_i hashes rest hrun
    have htext : hashes ++ '"' :: rest = text := by
      have hsplit := run_append (· == '#') text
      rwa [hrun] at hsplit
    rw [← htext, opensFence_hashes (hashes_of_run hrun)] at h
    cases h
  · rfl

/-- If neither a text opens a fence nor what comes in the place of its end, the new text opens
none. -/
theorem opensFence_append (hold : opensFence (front ++ old) = false)
    (hnew : opensFence new = false) : opensFence (front ++ new) = false := by
  induction front with
  | nil => exact hnew
  | cons c front ih =>
    by_cases hquote : c = '"'
    · subst hquote
      cases hold
    by_cases hhash : c = '#'
    · subst hhash
      exact ih hold
    · exact opensFence_cons hquote hhash _

/-! ### Texts that keep their marks -/

/-- Behind a relation of texts, a mark at the front of the second text was at the front of
the first. -/
def KeepsMarks (R : List Char → List Char → Prop) : Prop :=
  ∀ c ∈ ['#', '"', '*'], ∀ old new, R old (c :: new) → ∃ old', old = c :: old' ∧ R old' new

theorem keepsMarks_thinned : KeepsMarks Thinned := by
  have hsolid : (['#', '"', '*'].all (!isSpace ·)) = true := by decide
  intro c hc old new h
  exact h.of_cons c (by simpa using List.all_eq_true.1 hsolid c hc)

theorem keepsMarks_respelled : KeepsMarks Respelled := by
  have hunnamed : (['#', '"', '*'].all (!isNameChar ·)) = true := by decide
  intro c hc old new h
  exact h.of_cons (by simpa using List.all_eq_true.1 hunnamed c hc)

section
variable {R : List Char → List Char → Prop} (hR : KeepsMarks R)
include hR

theorem KeepsMarks.head_ne {mark : Char} (hmark : mark ∈ ['#', '"', '*']) (h : R old new)
    (hold : ∀ c ∈ old.head?, (c == mark) = false) : ∀ c ∈ new.head?, (c == mark) = false := by
  cases new with
  | nil => simp
  | cons c new =>
    rintro _ ⟨⟩
    by_contra hc
    rw [eq_of_beq ((Bool.not_eq_false _).mp hc)] at h
    obtain ⟨old', rfl, -⟩ := hR mark hmark _ _ h
    simpa using hold mark rfl

theorem KeepsMarks.opensFence_eq_false (h : R old new) (hold : opensFence old = false) :
    opensFence new = false := by
  fun_induction opensFence new generalizing old with
  | case1 =>
    obtain ⟨old', rfl, -⟩ := hR '"' (by decide) _ _ h
    cases hold
  | case2 rest ih =>
    obtain ⟨old', rfl, hrest⟩ := hR '#' (by decide) _ _ h
    exact ih hrest hold
  | case3 => rfl

theorem Shut.kept {kind : TokenKind} {lexeme : List Char} (h : R old new)
    (hold : Shut kind lexeme old) : Shut kind lexeme new := by
  cases kind with
  | string => exact hold
  | punct => exact fun heq => hR.head_ne (by decide) h (hold heq)
  | ident =>
    exact ⟨fun heq => hR.opensFence_eq_false h (hold.1 heq),
      fun heq => hR.head_ne (by decide) h (hold.2 heq)⟩
  | _ => trivial

end

theorem shut_receiverBound {t : Token} {rest : List Char} (h : Shut t.kind t.text.toList rest) :
    Shut t.kind t.receiverBound.text.toList rest := by
  by_cases hself : t.kind = .ident ∧ t.text = "self"
  · have hplain : "__cb_this".toList ∉ [['r'], ['b', 'r'], ['b']] := by decide
    simp only [List.mem_cons, List.not_mem_nil, or_false, not_or] at hplain
    rw [Token.receiverBound_of_self hself, hself.1]
    exact ⟨fun heq => (heq.elim hplain.1 hplain.2.1).elim, (absurd · hplain.2.2)⟩
  · rwa [Token.receiverBound_of_not hself]

/-- No raw name goes on behind `r` if none did in front of what begins alike. -/
theorem rawName_append_eq_none (hne : front ≠ []) (hraw : front ≠ ['#'])
    (h : rawName ('r' :: (front ++ old)) = none) : rawName ('r' :: (front ++ new)) = none := by
  cases front with
  | nil => exact absurd rfl hne
  | cons c front =>
    by_cases hc : c = '#'
    · subst hc
      cases front with
      | nil => exact absurd rfl hraw
      | cons d front =>
        change prepend ['r', '#'] (plainName (d :: (front ++ old))) = none at h
        change prepend ['r', '#'] (plainName (d :: (front ++ new))) = none
        rw [prepend_eq_none_iff, plainName_eq_none_iff] at h ⊢
        exact h
    · exact rawName_prefix_eq_none (by simpa using hc)

theorem fraction_append_eq_none (hne : front ≠ []) (hdigit : ∀ c ∈ new.head?, c.isDigit = false)
    (h : fraction (front ++ old) = none) : fraction (front ++ new) = none := by
  cases front with
  | nil => exact absurd rfl hne
  | cons c front =>
    by_cases hc : c = '.'
    · subst hc
      change prepend ['.'] (digits (front ++ old)) = none at h
      change prepend ['.'] (digits (front ++ new)) = none
      rw [prepend_eq_none_iff, digits_eq_none_iff] at h ⊢
      cases front with
      | nil => exact hdigit
      | cons d front => exact h
    · exact fraction_eq_none (by simpa using hc)

/-- A token that is shut may be followed by anything that begins like what followed it. -/
theorem follows_of_shut {kind : TokenKind} {lexeme : List Char} (hne : front ≠ [])
    (h : Follows kind lexeme (front ++ old)) (hshut : Shut kind lexeme (front ++ old))
    (hfence : opensFence new = false) (hdigit : ∀ c ∈ new.head?, c.isDigit = false)
    (hraw : lexeme = ['r'] → front ≠ ['#'])
    (hchar : lexeme = ['b'] → char ('b' :: (front ++ old)) = none →
      char ('b' :: (front ++ new)) = none) :
    Follows kind lexeme (front ++ new) := by
  have hhead : (front ++ new).head? = (front ++ old).head? := by
    rw [List.head?_append_of_ne_nil _ hne, List.head?_append_of_ne_nil _ hne]
  cases kind with
  | lineComment =>
    change ∀ c ∈ (front ++ new).head?, _
    rwa [hhead]
  | space =>
    change ∀ c ∈ (front ++ new).head?, _
    rwa [hhead]
  | string => exact fun _ => hshut
  | lifetime =>
    change (∀ c ∈ (front ++ new).head?, _) ∧ (_ → ∀ c ∈ (front ++ new).head?, _)
    rwa [hhead]
  | ident =>
    obtain ⟨hname, hr, hbr, hb⟩ := h
    obtain ⟨hfences, hquote⟩ := hshut
    refine ⟨hhead ▸ hname, fun heq => ⟨?_, ?_⟩, fun heq => ?_, fun heq => ⟨?_, ?_⟩⟩
    · exact fenced_eq_none_of_opensFence (opensFence_append (hfences (.inl heq)) hfence)
    · exact rawName_append_eq_none hne (hraw heq) (hr heq).2
    · exact fenced_eq_none_of_opensFence (opensFence_append (hfences (.inr heq)) hfence)
    · refine string_prefix_eq_none ?_
      rw [hhead]
      simpa using hquote heq
    · exact hchar heq (hb heq).2
  | number =>
    obtain ⟨hname, hpoint⟩ := h
    exact ⟨hhead ▸ hname, fun hmem => fraction_append_eq_none hne hdigit (hpoint hmem)⟩
  | punct =>
    obtain ⟨hpairs, hslash⟩ := h
    refine ⟨fun c hc => hhead ▸ hpairs c hc, fun heq => ⟨hhead ▸ (hslash heq).1, ?_⟩⟩
    refine blockComment_prefix_eq_none ?_
    rw [hhead]
    simpa using hshut heq
  | _ => trivial

end

end Terminal
namespace NestingScan

open Terminal

theorem endMark_of_throughNestedEnd {depth : Nat} {text lexeme behind : List Char}
    (h : throughNestedEnd depth text = some (lexeme, behind)) : ['*', '/'] <:+: text := by
  fun_induction throughNestedEnd depth text generalizing lexeme with
  | case1 => cases h
  | case2 depth rest ih =>
    obtain ⟨tail, htail, -⟩ := prepend_eq_some h
    exact (ih htail).trans (List.suffix_append ['/', '*'] rest).isInfix
  | case3 rest => exact (List.prefix_append ['*', '/'] rest).isInfix
  | case4 depth rest => exact (List.prefix_append ['*', '/'] rest).isInfix
  | case5 depth c rest _ _ _ ih =>
    obtain ⟨tail, htail, -⟩ := prepend_eq_some h
    exact (ih htail).trans (List.suffix_cons c rest).isInfix

/-- A comment whose nesting ends is taken, for it has an end mark. -/
theorem step_of_nestedComment {text lexeme rest : List Char}
    (h : nestedComment text = some (lexeme, rest)) :
    step text = .token .blockComment lexeme rest := by
  have hmarks := h
  unfold nestedComment at hmarks
  split at hmarks
  · rename_i back
    obtain ⟨tail, htail, -⟩ := prepend_eq_some hmarks
    obtain ⟨split, hsplit⟩ : ∃ split, blockComment ('/' :: '*' :: back) = some split := by
      rw [blockComment, ← Option.isSome_iff_exists, Option.isSome_iff_ne_none, Ne,
        prepend_eq_none_iff, throughCommentEnd_eq_none_iff]
      exact not_not_intro (endMark_of_throughNestedEnd htail)
    unfold step
    rw [next?_of_blockComment hsplit]
    dsimp only
    rw [countedComment_eq, h]
  · cases hmarks

theorem nestedComment_of_step {text lexeme rest : List Char}
    (h : step text = .token .blockComment lexeme rest) :
    nestedComment text = some (lexeme, rest) := by
  unfold step at h
  split at h
  · cases h
  · split at h
    · cases h
    · rename_i hcounted
      cases h
      rwa [countedComment_eq] at hcounted
  · rename_i hkind _
    cases h
    exact absurd rfl hkind

/-! ### Sealed texts -/

/-- The first characters of a text are tokens with these contents that are shut, with white space
and comments around them, and the others stand behind. -/
inductive Sealed : List Char → List Char → List Token.Content → Prop
  | nil (old : List Char) : Sealed [] old []
  | blank {c : Char} {front old : List Char} {contents : List Token.Content} : isSpace c = true →
    Sealed front old contents → Sealed (c :: front) old contents
  | lineComment {lexeme front old : List Char} {contents : List Token.Content} :
    next? (lexeme ++ (front ++ old)) = some (.lineComment, lexeme, front ++ old) → front ≠ [] →
    Sealed front old contents → Sealed (lexeme ++ front) old contents
  | blockComment {lexeme front old : List Char} {contents : List Token.Content} :
    nestedComment (lexeme ++ (front ++ old)) = some (lexeme, front ++ old) →
    Sealed front old contents → Sealed (lexeme ++ front) old contents
  | token {kind : TokenKind} {lexeme front old : List Char} {contents : List Token.Content} :
    kind.isTrivia = false →
    next? (lexeme ++ (front ++ old)) = some (kind, lexeme, front ++ old) →
    Shut kind lexeme (front ++ old) → Sealed front old contents →
    Sealed (lexeme ++ front) old ((kind, lexeme) :: contents)

section
variable {front middle old new : List Char} {contents more : List Token.Content}

theorem Sealed.blanks {blanks : List Char} (h : Sealed front old contents)
    (hblanks : ∀ c ∈ blanks, isSpace c = true) :
    Sealed (blanks ++ front) old contents := by
  induction blanks with
  | nil => exact h
  | cons c blanks ih =>
    obtain ⟨hc, hrest⟩ := List.forall_mem_cons.1 hblanks
    exact .blank hc (ih hrest)

/-- Behind `b`, a sealed text goes on to begin no character literal if something else comes
behind it. -/
theorem Sealed.char_eq_none (h : Sealed front old contents) (hne : front ≠ [])
    (hold : char ('b' :: (front ++ old)) = none) (hnew : ∀ c ∈ new.head?, (c == '\'') = false) :
    char ('b' :: (front ++ new)) = none := by
  cases h with
  | nil => exact absurd rfl hne
  | @blank c _ _ _ hc _ =>
    have hmark : c ≠ '\'' := by rintro rfl; exact absurd hc (by decide)
    exact Terminal.char_eq_none (by decide) (by simpa using hmark)
  | @lineComment lexeme front _ _ hnext _ _ =>
    cases lexeme with
    | nil => exact absurd rfl (next?_sound hnext).2
    | cons c body =>
      refine Terminal.char_eq_none (by decide) fun _ d hd hmark => ?_
      cases hd
      rw [hmark] at hnext
      cases lineComment_of_next? hnext
  | @blockComment lexeme front _ _ hnested _ =>
    have hslash := nestedComment_head hnested
    cases lexeme with
    | nil => exact absurd rfl (nestedComment_sound _ _ _ hnested).2
    | cons c body =>
      cases hslash
      exact Terminal.char_eq_none (by decide) (by simp)
  | @token kind lexeme front _ _ _ hnext _ _ =>
    rw [List.append_assoc] at hold ⊢
    cases lexeme with
    | nil => exact absurd rfl (next?_sound hnext).2
    | cons c body =>
      by_cases hc : c = '\''
      · subst hc
        rw [List.cons_append, char_prefixed_eq_none_iff] at hold ⊢
        refine apostrophe_refuses hnext (fun hhead => ?_) hold
        cases front with
        | nil => exact hnew
        | cons d front => exact hhead
      · exact Terminal.char_eq_none (by decide) (by simpa using hc)

/-- One more token in front, behind blanks. -/
theorem Sealed.cons {text blanks : List Char} {t : Token} (h : Sealed text [] contents)
    (hblanks : ∀ c ∈ blanks, isSpace c = true) (hkind : t.kind.isTrivia = false)
    (hnext : next? (t.text.toList ++ text) = some (t.kind, t.text.toList, text))
    (hshut : Shut t.kind t.text.toList text) :
    Sealed (blanks ++ (t.text.toList ++ text)) [] (t.content :: contents) := by
  rw [← List.append_nil text] at hnext hshut
  exact (Sealed.token hkind hnext hshut h).blanks hblanks

/-! ### Texts all of whose tokens are shut -/

def AllShut (text : List Char) : Prop :=
  ∀ front rest kind lexeme back, text = front ++ rest → Reads front rest →
    step rest = .token kind lexeme back → Shut kind lexeme back

theorem AllShut.shut {text lexeme back : List Char} {kind : TokenKind} (h : AllShut text)
    (hstep : step text = .token kind lexeme back) : Shut kind lexeme back :=
  h [] text kind lexeme back rfl (.nil text) hstep

theorem AllShut.behind {rest : List Char} (h : AllShut (front ++ rest))
    (hreads : Reads front rest) : AllShut rest := by
  rintro front' rest' kind lexeme back rfl hreads' hstep
  exact h (front ++ front') rest' kind lexeme back (List.append_assoc _ _ _).symm
    (hreads.append hreads') hstep

/-- A token that carries meaning begins with no blank. -/
theorem isSpace_head {kind : TokenKind} {text lexeme rest : List Char}
    (hnext : next? text = some (kind, lexeme, rest)) (hkind : kind.isTrivia = false) :
    ∀ c ∈ text.head?, isSpace c = false := by
  cases text with
  | nil => simp
  | cons c text =>
    rintro _ ⟨⟩
    by_contra hc
    rw [next?_blank ((Bool.not_eq_false _).mp hc)] at hnext
    cases hnext
    cases hkind

/-- No line comment touches a token that carries meaning. -/
theorem not_lineComment {kind : TokenKind} {comment text lexeme rest : List Char}
    (hline : next? (comment ++ text) = some (.lineComment, comment, text))
    (hnext : next? text = some (kind, lexeme, rest)) (hkind : kind.isTrivia = false) : False := by
  cases text with
  | nil => cases hnext
  | cons c text =>
    have hfeed : c = '\n' := follows_of_next? hline c rfl
    have hspace := isSpace_head hnext hkind c rfl
    rw [hfeed] at hspace
    cases hspace

/-- Up to a token that carries meaning, a text all of whose tokens are shut is sealed. -/
theorem Cut.exists_sealed {here : Location} {text : List Char} {tokens : List Token}
    {fault : Option Diagnostic} (h : Cut here text tokens fault) (hshut : AllShut text)
    {before after : List Token} {t : Token}
    (htokens : (tokens.filter fun t => !t.kind.isTrivia) = before ++ t :: after) :
    ∃ front rest tokens', text = front ++ (t.text.toList ++ rest) ∧
      Reads front (t.text.toList ++ rest) ∧
      Sealed front (t.text.toList ++ rest) (before.map Token.content) ∧
      t.start.offset = here.offset + front.length ∧
      t.stop.offset = t.start.offset + t.text.toList.length ∧ t.kind.isTrivia = false ∧
      next? (t.text.toList ++ rest) = some (t.kind, t.text.toList, rest) ∧
      Cut t.stop rest tokens' fault ∧
      (tokens'.filter fun t => !t.kind.isTrivia) = after := by
  induction h generalizing before with
  | stuck =>
    have := congrArg List.length htokens
    simp at this
  | unterminated =>
    have := congrArg List.length htokens
    simp at this
  | @token here kind lexeme rest tokens fault hstep htail ih =>
    have hreads : Reads (lexeme ++ []) rest := .token hstep (.nil rest)
    rw [List.append_nil] at hreads
    have hbehind := hshut.behind hreads
    cases hkind : kind.isTrivia with
    | true =>
      rw [List.filter_cons_of_neg (by simp [hkind])] at htokens
      obtain ⟨front, rest', tokens', rfl, hread, hsealed, hstart, hstop, hplain, hnext, hcut,
        hrest⟩ := ih hbehind htokens
      refine ⟨lexeme ++ front, rest', tokens', (List.append_assoc _ _ _).symm,
        .token hstep hread, ?_, ?_, hstop, hplain, hnext, hcut, hrest⟩
      · cases kind with
        | space =>
          have hspace := next?_of_step hstep nofun
          exact hsealed.blanks (forall_mem_of_space (space_of_next? hspace))
        | lineComment =>
          have hline := next?_of_step hstep nofun
          refine .lineComment hline ?_ hsealed
          rintro rfl
          exact not_lineComment hline hnext hplain
        | blockComment => exact .blockComment (nestedComment_of_step hstep) hsealed
        | _ => cases hkind
      · rw [hstart, Location.after_offset, List.length_append]
        omega
    | false =>
      have hcomment : kind ≠ .blockComment := by
        rintro rfl
        cases hkind
      have hnext := next?_of_step hstep hcomment
      rw [List.filter_cons_of_pos (by simp [hkind])] at htokens
      cases before with
      | nil =>
        cases htokens
        rw [String.toList_ofList]
        exact ⟨[], rest, tokens, rfl, .nil _, .nil _, rfl, Location.after_offset _ _, hkind, hnext,
          htail, rfl⟩
      | cons u before =>
        obtain ⟨rfl, hothers⟩ := List.cons.inj htokens
        obtain ⟨front, rest', tokens', rfl, hread, hsealed, hstart, hstop, hplain, hnext', hcut,
          hrest⟩ := ih hbehind hothers
        refine ⟨lexeme ++ front, rest', tokens', (List.append_assoc _ _ _).symm,
          .token hstep hread, ?_, ?_, hstop, hplain, hnext', hcut, hrest⟩
        · rw [List.map_cons, Token.content, String.toList_ofList]
          exact .token hkind hnext (hshut.shut hstep) hsealed
        · rw [hstart, Location.after_offset, List.length_append]
          omega

end

/-! ### Texts in which nothing is left open -/

/-- Where a token begins, no comment and no raw string is opened that never closes, and a string
literal closes at a quote that no backslash escapes. -/
structure Closed (text : List Char) : Prop where
  comments : ∀ t ∈ (ofText text).tokens, ¬NeverCloses (text.drop t.start.offset)
  rawStrings : ∀ t ∈ (ofText text).tokens, opensRaw (text.drop t.start.offset) = true →
    t.kind = .rawString
  strings : ∀ t ∈ (ofText text).tokens, t.kind = .string → isFirm t.text.toList = true

instance (text : List Char) : Decidable (Closed text) :=
  decidable_of_iff ((∀ t ∈ (ofText text).tokens, ¬NeverCloses (text.drop t.start.offset)) ∧
      (∀ t ∈ (ofText text).tokens, opensRaw (text.drop t.start.offset) = true →
        t.kind = .rawString) ∧
      ∀ t ∈ (ofText text).tokens, t.kind = .string → isFirm t.text.toList = true)
    ⟨fun ⟨hcomments, hraws, hstrings⟩ => ⟨hcomments, hraws, hstrings⟩,
      fun h => ⟨h.comments, h.rawStrings, h.strings⟩⟩

/-- What is read in a text begins where a token does. -/
theorem exists_token_of_reads {front rest lexeme back : List Char} {kind : TokenKind}
    (hreads : Reads front rest) (hstep : step rest = .token kind lexeme back) :
    (∃ t ∈ (ofText (front ++ rest)).tokens, t.kind = kind ∧ t.text.toList = lexeme ∧
      (front ++ rest).drop t.start.offset = rest) ∧
    ((ofText (front ++ rest)).fault = none → back ≠ [] → step back ≠ .stuck) := by
  obtain ⟨tokens, hscan⟩ := hreads.scanFrom_eq .first
  rw [scanFrom_token hstep] at hscan
  have hplace : (front ++ rest).drop (Location.first.after front).offset = rest := by
    rw [Location.after_first]
    exact List.drop_left
  rw [ofText, hscan]
  refine ⟨⟨_, List.mem_append_right _ List.mem_cons_self, rfl, String.toList_ofList, hplace⟩, ?_⟩
  intro hfault hne hstuck
  rw [scanFrom_stuck hstuck] at hfault
  exact hne (by simpa using hfault)

theorem next?_quote_eq_none {rest : List Char} (h : string ('"' :: rest) = none) :
    next? ('"' :: rest) = none := by
  have hpunct : punct ('"' :: rest) = none := punct_eq_none (by decide)
  simp [next?, terminals, lineComment, blockComment, rawString, h, char, lifetime, ident, rawName,
    plainName, isNameStart, number, digits, space, word, isSpace, hpunct, single]

/-- Where a comment mark is read as a slash, the comment never closes. -/
theorem neverCloses_of_slash {text back : List Char} (hmark : '/' :: '*' :: back = text)
    {lexeme rest : List Char} (hstep : step text = .token .punct lexeme rest) :
    NeverCloses text := by
  refine neverCloses_iff.2 ⟨⟨back, hmark⟩, ?_⟩
  rw [countedComment_eq]
  cases hnested : nestedComment text with
  | none => rfl
  | some split =>
    rw [step_of_nestedComment hnested] at hstep
    cases hstep

/-- Where `b` and a quote begin no string, the quote begins none. -/
theorem step_quote_eq_stuck {back : List Char} (h : string ('b' :: '"' :: back) = none) :
    step ('"' :: back) = .stuck := by
  unfold step
  rw [next?_quote_eq_none]
  exact prepend_eq_none_iff.2 (prepend_eq_none_iff.1 h)

/-- The tokens of a text in which nothing is left open are shut. -/
theorem Closed.allShut {text : List Char} (h : Closed text)
    (hfault : (ofText text).fault = none) : AllShut text := by
  rintro front rest kind lexeme back rfl hreads hstep
  obtain ⟨⟨t, ht, rfl, rfl, hdrop⟩, hends⟩ := exists_token_of_reads hreads hstep
  obtain ⟨happ, -⟩ := step_sound hstep
  have hcomment := h.comments t ht
  have hraw := h.rawStrings t ht
  rw [hdrop] at hcomment hraw
  generalize hkind : t.kind = kind at hstep hraw
  cases kind with
  | string => exact h.strings t ht hkind
  | punct =>
    intro heq c hc
    by_contra hstar
    rw [heq] at happ
    cases back with
    | nil => cases hc
    | cons d back =>
      cases hc
      rw [eq_of_beq ((Bool.not_eq_false _).mp hstar)] at happ
      exact hcomment (neverCloses_of_slash happ hstep)
  | ident =>
    have hnext := next?_of_step hstep nofun
    constructor
    · intro heq
      by_contra hfence
      have hfence := (Bool.not_eq_false _).mp hfence
      have hopens : opensRaw rest = true := by
        rw [← happ]
        rcases heq with heq | heq
        · rw [heq]
          exact hfence
        · rw [heq]
          exact hfence
      cases hraw hopens
    · intro heq c hc
      by_contra hquote
      cases back with
      | nil => cases hc
      | cons d back =>
        cases hc
        have hd := eq_of_beq ((Bool.not_eq_false _).mp hquote)
        subst hd
        -- the quote would begin a string, and so would the `b` before it
        have hstring := string_of_next?_ne hnext nofun
        rw [← happ, heq] at hstring
        exact hends hfault (List.cons_ne_nil _ _) (step_quote_eq_stuck hstring)
  | _ => trivial

end NestingScan

namespace Spells

open NestingScan

section
variable {here : Location} {text new : List Char} {tokens run : List Token}
  {fault : Option Diagnostic} (hcut : Cut here text tokens fault) (hshut : AllShut text)
  (hfront : run <+: tokens.filter fun t => !t.kind.isTrivia)
include hcut hshut hfront

/-- A text that spells tokens that are shut is sealed. -/
theorem sealed (h : Spells here.offset run new) : Sealed new [] (run.map Token.content) := by
  generalize hstop : here.offset = stop at h
  induction h generalizing here text tokens with
  | nil => exact .nil []
  | @cons stop blanks new t rest hblanks htouch hspells ih =>
    obtain ⟨more, hmore⟩ := hfront
    obtain ⟨skipped, after, tokens', rfl, hreads, hstart, hkind, hnext, _, hcut', hrest⟩ :=
      hcut.exists_next hmore.symm
    have hfront' : rest <+: tokens'.filter fun t => !t.kind.isTrivia := ⟨more, hrest.symm⟩
    have hread := hshut.behind hreads
    have hstep := step_of_next? hnext (ne_of_isTrivia hkind rfl).elim
    have hr := respaced hspells hcut' hfront'
    have hnext' := Terminal.next?_respaced hnext hr (ne_of_isTrivia hkind rfl).elim
      (ne_of_isTrivia hkind rfl).elim
    have hsealed := ih hcut' (hread.behind (reads_token hkind hnext)) hfront' rfl
    exact hsealed.cons hblanks hkind hnext'
      ((hread.shut hstep).kept Terminal.keepsMarks_thinned hr.thinned)

/-- The same holds under the name that an adapter gives to the receiver. -/
theorem sealed_receiverBound (h : Spells here.offset (run.map Token.receiverBound) new) :
    Sealed new [] (run.map fun t => t.receiverBound.content) := by
  induction run generalizing here text tokens new with
  | nil =>
    cases h
    exact .nil []
  | cons t rest ih =>
    cases h with
    | @cons _ blanks new _ _ hblanks htouch hspells =>
      obtain ⟨more, hmore⟩ := hfront
      obtain ⟨skipped, after, tokens', rfl, hreads, hstart, hkind, hnext, _, hcut', hrest⟩ :=
        hcut.exists_next hmore.symm
      have hfront' : rest <+: tokens'.filter fun t => !t.kind.isTrivia := ⟨more, hrest.symm⟩
      have hread := hshut.behind hreads
      have hstep := step_of_next? hnext (ne_of_isTrivia hkind rfl).elim
      have hsealed := ih hcut' (hread.behind (reads_token hkind hnext)) hfront' hspells
      obtain ⟨-, kept, hkept, hreworded⟩ := hspells.exists_reworded hcut' hfront'
      have hr := respaced hkept hcut' hfront'
      have hnext' := Terminal.next?_respaced hnext hr (ne_of_isTrivia hkind rfl).elim
        (ne_of_isTrivia hkind rfl).elim
      have hshut' := ((hread.shut hstep).kept Terminal.keepsMarks_thinned hr.thinned).kept
        Terminal.keepsMarks_respelled hreworded.respelled
      exact hsealed.cons (t := t.receiverBound) hblanks hkind
        (Terminal.next?_receiverBound hnext' hreworded).1 (Terminal.shut_receiverBound hshut')

end

end Spells

end LuaBindings
