import LuaBindings.Proofs.TokenTree.Completion

/-!
# Texts put together from parts

The texts of generated code are fixed but for the parts that are put into them. A part fits if,
in front of what may come behind any token, it opens and closes nothing (`Fits`). Where the
tokens of a fixed text end is decided by the text itself (`Completes.text`).
-/

set_option autoImplicit false

namespace LuaBindings.NestingScan

open Terminal

/-! ### Fixed texts -/

/-- The token ends where it does whatever comes behind the rest. -/
def isFixed (kind : TokenKind) (lexeme rest : List Char) : Bool :=
  match kind with
  | .opener _ | .closer _ => true
  | .ident | .lifetime => rest.head?.any fun c => !isNameChar c && !(['#', '"', '\''].contains c)
  | .punct => lexeme != ['/'] && punctPairs.all fun pair =>
    lexeme != [pair.1] || rest.head?.any (· != pair.2)
  | _ => false

/-- The tokens of a text, if all of them are fixed. -/
def fixedContents : Nat → List Char → Option (List Token.Content)
  | _, [] => some []
  | 0, _ => none
  | fuel + 1, c :: text =>
    if isSpace c then fixedContents fuel text
    else
      match next? (c :: text) with
      | some (kind, lexeme, rest) =>
        if isFixed kind lexeme rest then (fixedContents fuel rest).map ((kind, lexeme) :: ·)
        else none
      | none => none

def opensBehind (groups : List Delimiter) (text : String) : Option (List Delimiter) :=
  (fixedContents text.toList.length text.toList).bind (·.foldlM nests groups)

section
variable {σ : Type} {next : σ → Token.Content → Option σ} {Ends : σ → List Char → Prop}
  {s behind : σ} {rest : List Char}

theorem follows_of_isFixed {kind : TokenKind} {lexeme back : List Char}
    (h : isFixed kind lexeme back = true) (rest : List Char) :
    kind.isTrivia = false ∧ Follows kind lexeme (back ++ rest) := by
  cases kind with
  | ident =>
    refine ⟨rfl, ?_⟩
    cases back with
    | nil => cases h
    | cons c back =>
      refine Breaks.follows (fun d hd => ?_) lexeme
      cases hd
      simpa [isFixed] using h
  | lifetime =>
    refine ⟨rfl, ?_⟩
    cases back with
    | nil => cases h
    | cons c back =>
      have hc : isNameChar c = false ∧ ¬c = '#' ∧ ¬c = '"' ∧ ¬c = '\'' := by simpa [isFixed] using h
      exact ⟨by simpa using hc.1, fun _ => by simpa using hc.2.2.2⟩
  | punct =>
    refine ⟨rfl, ?_⟩
    simp only [isFixed, Bool.and_eq_true, bne_iff_ne, ne_eq, List.all_eq_true, Bool.or_eq_true] at h
    refine ⟨fun c hc d hd hpair => ?_, fun hslash => absurd hslash h.1⟩
    rcases h.2 _ hpair with hne | hany
    · exact hne hc
    · cases back with
      | nil => cases hany
      | cons e back =>
        cases hd
        simp at hany
  | opener d => exact ⟨rfl, trivial⟩
  | closer d => exact ⟨rfl, trivial⟩
  | _ => cases h

theorem Completes.fixed {fuel : Nat} {text : List Char} {contents : List Token.Content}
    (h : fixedContents fuel text = some contents) (hrun : contents.foldlM next s = some behind)
    (hrest : Completes next Ends behind rest) : Completes next Ends s (text ++ rest) := by
  fun_induction fixedContents fuel text generalizing s contents with
  | case1 =>
    cases h
    cases hrun
    exact hrest
  | case2 => cases h
  | case3 fuel c text hc ih => exact .blank hc (ih h hrun)
  | case4 fuel c text hc kind lexeme back hnext hfixed ih =>
    obtain ⟨contents, hcontents, rfl⟩ := Option.map_eq_some_iff.1 h
    rw [List.foldlM_cons] at hrun
    obtain ⟨middle, hmiddle, hrun⟩ := Option.bind_eq_some_iff.1 hrun
    obtain ⟨hkind, hfollows⟩ := follows_of_isFixed hfixed rest
    have htext := (next?_sound hnext).1
    rw [← htext] at hnext
    rw [← htext, List.append_assoc]
    exact (ih hcontents hrun).lexeme kind lexeme (next?_append_iff.1 hnext).1 hkind hfollows
      hmiddle
  | case5 => cases h
  | case6 => cases h

/-- What begins with a boundary may come behind any token. -/
theorem Completes.joins_boundary {text : List Char} (h : Completes next Ends s (text ++ rest))
    (hhead : text.head?.any (· ∈ boundaries) = true) : Joins next Ends s (text ++ rest) := by
  cases text with
  | nil => cases hhead
  | cons c more => exact h.joins_of_bounded (bounded_cons (by simpa using hhead) _)

end

section
variable {groups behind : List Delimiter} {Ends : List Delimiter → List Char → Prop}
  {rest : List Char}

theorem foldlM_nests_outer {contents : List Token.Content}
    (h : contents.foldlM nests groups = some behind) (outer : List Delimiter) :
    contents.foldlM nests (groups ++ outer) = some (behind ++ outer) := by
  rw [foldlM_nests] at h ⊢
  exact nest_outer h outer

/-- A text of fixed tokens, which closes the groups in front and opens those behind. -/
theorem Completes.text {outer : List Delimiter} (front : List Delimiter) (text : String)
    (behind : List Delimiter) (h : opensBehind front text = some behind)
    (hrest : Completes nests Ends (behind ++ outer) rest) :
    Completes nests Ends (front ++ outer) (text.toList ++ rest) := by
  obtain ⟨contents, hcontents, hrun⟩ := Option.bind_eq_some_iff.1 h
  exact hrest.fixed hcontents (foldlM_nests_outer hrun outer)

/-- A closing angle bracket at the front of a text of fixed tokens is one of them. -/
theorem exists_fixedContents_of_angle {fuel : Nat} {text : List Char}
    {contents : List Token.Content} (h : fixedContents fuel ('>' :: text) = some contents) :
    ∃ fuel more, fixedContents fuel text = some more ∧ contents = (.punct, ['>']) :: more := by
  have hnext : next? ('>' :: text) = some (.punct, ['>'], text) :=
    next?_of_punct (punct_one (by decide) (by simp [punctPairs])) rfl rfl
  have hfixed : isFixed .punct ['>'] text = true := by simp [isFixed, punctPairs]
  cases fuel with
  | zero => cases h
  | succ fuel =>
    rw [fixedContents, if_neg (by decide), hnext] at h
    dsimp only at h
    rw [if_pos hfixed] at h
    obtain ⟨more, hmore, rfl⟩ := Option.map_eq_some_iff.1 h
    exact ⟨fuel, more, hmore, rfl⟩

/-- A text of fixed tokens may come behind any token if it begins with a boundary or a closing
angle bracket. -/
theorem Completes.joins_text {outer : List Delimiter} (front : List Delimiter) (text : String)
    (behind : List Delimiter) (h : opensBehind front text = some behind)
    (hhead : text.toList.head?.any (· ∈ '>' :: boundaries) = true)
    (hrest : Completes nests Ends (behind ++ outer) rest) :
    Joins nests Ends (front ++ outer) (text.toList ++ rest) := by
  have hcompletes := Completes.text front text behind h hrest
  obtain ⟨contents, hcontents, hrun⟩ := Option.bind_eq_some_iff.1 h
  cases htext : text.toList with
  | nil =>
    rw [htext] at hhead
    cases hhead
  | cons c more =>
    rw [htext] at hhead hcompletes hcontents
    have hc : c = '>' ∨ c ∈ boundaries := by simpa using hhead
    rcases hc with rfl | hc
    · obtain ⟨fuel, others, hothers, rfl⟩ := exists_fixedContents_of_angle hcontents
      exact (hrest.fixed hothers (foldlM_nests_outer hrun outer)).joins_angle
    · exact hcompletes.joins_of_bounded (bounded_cons hc _)

theorem breaks_text (text : String)
    (h : text.toList.head?.any (fun c => !isNameChar c && !(['#', '"', '\''].contains c)) = true)
    (rest : List Char) : Breaks (text.toList ++ rest) := by
  cases htext : text.toList with
  | nil =>
    rw [htext] at h
    cases h
  | cons c more =>
    rw [htext] at h
    rintro d hd
    cases hd
    simpa using h

/-! ### Parts of a text -/

/-- In front of what may come behind any token, the text opens and closes nothing. -/
def Fits (text : String) : Prop :=
  ∀ ⦃Ends : List Delimiter → List Char → Prop⦄ ⦃groups : List Delimiter⦄ ⦃rest : List Char⦄,
    Joins nests Ends groups rest → Completes nests Ends groups (text.toList ++ rest)

theorem fits_of_sealed {text : String} {contents : List Token.Content}
    (h : Sealed text.toList [] contents)
    (hrun : ∀ groups, contents.foldlM nests groups = some groups) : Fits text :=
  fun _ groups _ hrest => h.completes (hrun groups) hrest

theorem fits_ident {name : String} (h : IsLexeme .ident name) : Fits name :=
  fun _ _ _ hrest => hrest.behind rfl rfl h nofun rfl

theorem completes_quote (value : String) (hrest : Completes nests Ends groups rest) :
    Completes nests Ends groups ((Literal.quote value).toList ++ rest) := by
  obtain ⟨halone, hfirm⟩ := Literal.isLexeme_quote value
  exact hrest.lexeme .string _ halone rfl (fun _ => hfirm) rfl

theorem fits_quote (value : String) : Fits (Literal.quote value) :=
  fun _ _ _ hrest => completes_quote value hrest.completes

theorem Fits.behind_text {text : String} (h : Fits text) (front : String)
    (hfront : opensBehind [] front = some []) : Fits (front ++ text) := by
  intro Ends groups rest hrest
  rw [String.toList_append, List.append_assoc]
  exact Completes.text [] front [] hfront (h hrest)

/-- A part in a group, behind which anything may come. -/
theorem Fits.enclosed {text : String} (h : Fits text) (front back : String) (d : Delimiter)
    (hfront : opensBehind [] front = some [d]) (hback : opensBehind [d] back = some [])
    (hhead : back.toList.head?.any (· ∈ '>' :: boundaries) = true)
    (hrest : Completes nests Ends groups rest) :
    Completes nests Ends groups ((front ++ text ++ back).toList ++ rest) := by
  simp only [String.toList_append, List.append_assoc]
  have hclosed : Joins nests Ends (d :: groups) (back.toList ++ rest) :=
    Completes.joins_text [d] back [] hback hhead hrest
  exact Completes.text [] front [d] hfront (h hclosed)

/-- Parts with commas between them, the last of which may be anything. -/
theorem Completes.list_concat {texts : List String} {last : String} (h : ∀ text ∈ texts, Fits text)
    (hrest : Completes nests Ends groups (last.toList ++ rest)) :
    Completes nests Ends groups ((String.intercalate ", " (texts ++ [last])).toList ++ rest) := by
  induction texts with
  | nil => exact hrest
  | cons text texts ih =>
    obtain ⟨htext, htexts⟩ := List.forall_mem_cons.1 h
    have hseparator := Completes.joins_text [] ", " [] (by decide) (by decide) (ih htexts)
    have hbehind := htext hseparator
    rw [String.toList_intercalate] at hbehind ⊢
    obtain ⟨next, others, hsplit⟩ :=
      List.exists_cons_of_ne_nil (l := (texts ++ [last]).map String.toList) (by simp)
    rw [List.cons_append, List.map_cons, hsplit, List.intercalate_cons_cons, ← hsplit]
    simpa using hbehind

theorem fits_list {texts : List String} (h : ∀ text ∈ texts, Fits text) :
    Fits (String.intercalate ", " texts) := by
  intro Ends groups rest hrest
  rcases List.eq_nil_or_concat texts with rfl | ⟨others, last, rfl⟩
  · exact hrest.completes
  · rw [List.concat_eq_append] at h ⊢
    obtain ⟨hothers, hlast⟩ := List.forall_mem_append.1 h
    exact Completes.list_concat hothers (hlast last List.mem_cons_self hrest)

end

/-! ### Lines -/

section
variable {σ : Type} {next : σ → Token.Content → Option σ} {s middle behind : σ}

/-- The line takes the state in front of it to the one behind it. -/
def Line (next : σ → Token.Content → Option σ) (s : σ) (text : String) (behind : σ) : Prop :=
  ∀ ⦃Ends : σ → List Char → Prop⦄ ⦃rest : List Char⦄,
    Completes next Ends behind rest → Completes next Ends s (text.toList ++ '\n' :: rest)

inductive Lines (next : σ → Token.Content → Option σ) : σ → List String → σ → Prop
  | nil (s : σ) : Lines next s [] s
  | cons {s middle behind : σ} {text : String} {texts : List String} :
    Line next s text middle → Lines next middle texts behind → Lines next s (text :: texts) behind

theorem Lines.append {texts more : List String} (h : Lines next s texts middle)
    (hmore : Lines next middle more behind) : Lines next s (texts ++ more) behind := by
  induction h with
  | nil => exact hmore
  | cons hline _ ih => exact .cons hline (ih hmore)

theorem Line.lines {text : String} (h : Line next s text behind) : Lines next s [text] behind :=
  .cons h (.nil behind)

theorem lines_of_forall {texts : List String} (h : ∀ text ∈ texts, Line next s text s) :
    Lines next s texts s := by
  induction texts with
  | nil => exact .nil s
  | cons text texts ih =>
    obtain ⟨htext, htexts⟩ := List.forall_mem_cons.1 h
    exact .cons htext (ih htexts)

theorem lines_flatMap {α : Type} {f : α → List String} {list : List α}
    (h : ∀ a ∈ list, Lines next s (f a) s) : Lines next s (list.flatMap f) s := by
  induction list with
  | nil => exact .nil s
  | cons a list ih =>
    obtain ⟨ha, hlist⟩ := List.forall_mem_cons.1 h
    rw [List.flatMap_cons]
    exact ha.append (ih hlist)

theorem Lines.completes {Ends : σ → List Char → Prop} {texts : List String} {rest : List Char}
    (h : Lines next s texts behind) (hrest : Completes next Ends behind rest) :
    Completes next Ends s (texts.flatMap (fun text => text.toList ++ ['\n']) ++ rest) := by
  induction h with
  | nil => exact hrest
  | cons hline _ ih =>
    rw [List.flatMap_cons, List.append_assoc, List.append_assoc, List.singleton_append]
    exact hline (ih hrest)

/-- A line may be indented. -/
theorem Line.indented {text : String} (h : Line next s text behind) {blanks : String}
    (hblanks : ∀ c ∈ blanks.toList, isSpace c = true) : Line next s (blanks ++ text) behind := by
  intro Ends rest hrest
  rw [String.toList_append, List.append_assoc]
  exact (h hrest).blanks hblanks

end
end LuaBindings.NestingScan
