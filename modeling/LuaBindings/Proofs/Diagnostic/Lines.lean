import LuaBindings.FileRun
import LuaBindings.Proofs.Places.Sources
import LuaBindings.Proofs.Token.Lookahead
import LuaBindings.Proofs.Token.Spelling

/-!
# Diagnostics are lines

A file that is not to be had, a text without tokens and a declaration that is not supported are
all said to be so in one line each: what a message quotes is a name, a mark or a number, and a
stray line boundary is not quoted. So a failure is reported in as many lines as it has diagnostics
(`Failure.splitLines_text`).
-/

set_option autoImplicit false

namespace LuaBindings

open Text (Unbroken)

def Failure.InLines (f : Failure) : Prop :=
  ∀ d ∈ f.toList, d.text ≠ "" ∧ Unbroken d.text

theorem Failure.splitLines_text {f : Failure} (h : f.InLines) :
    Text.splitLines f.text = f.toList.map Diagnostic.text :=
  Text.splitLines_intercalate (List.forall_mem_map.2 h)

/-! ### Wording -/

theorem TokenFault.unbroken_message (fault : TokenFault) (place : Location) :
    Unbroken (fault.message place) := by
  have hline := Text.unbroken_nat place.line
  have hcolumn := Text.unbroken_nat place.column
  cases fault with
  | strayCharacter c =>
    unfold message
    dsimp only
    by_cases hc : Text.isLineBoundary c = true
    · rw [if_pos hc]
      exact Text.unbroken_ofList (by decide)
    · rw [if_neg hc]
      have hquoted := Text.unbroken_singleton (Bool.eq_false_iff.2 hc)
      refine (((Unbroken.append (.append ?_ hquoted) ?_).append hline).append ?_).append hcolumn
      all_goals exact Text.unbroken_ofList (by decide)
  | unexpectedCloser d =>
    have hname : Unbroken d.closerName := by cases d <;> exact Text.unbroken_ofList (by decide)
    have htext : Unbroken d.closeText := by cases d <;> exact Text.unbroken_ofList (by decide)
    unfold message
    dsimp only
    refine ((((Unbroken.append (.append (.append ?_ hname) ?_) htext).append ?_).append
      hline).append ?_).append (.append (.append ?_ hcolumn) ?_)
    all_goals exact Text.unbroken_ofList (by decide)
  | openAtEnd =>
    unfold message
    dsimp only
    refine (((Unbroken.append ?_ hline).append ?_).append hcolumn).append ?_
    all_goals exact Text.unbroken_ofList (by decide)

theorem FileFault.unbroken_message (fault : FileFault) : Unbroken fault.message := by
  cases fault <;> exact Text.unbroken_ofList (by decide)

theorem Text.Utf8Fault.unbroken_message (fault : Utf8Fault) : Unbroken fault.message := by
  cases fault <;> exact Text.unbroken_ofList (by decide)

namespace Cause

/-- A text without trees, or a file without a text, is reported in one line. -/
theorem unbroken_invalidUtf8 (fault : Text.Utf8Fault) (offset : Nat) :
    Unbroken (invalidUtf8 fault offset).message := by
  unfold message
  refine ((Unbroken.append ?_ fault.unbroken_message).append ?_).append (Text.unbroken_nat _)
  all_goals exact Text.unbroken_ofList (by decide)

theorem unbroken_unreadable (fault : FileFault) : Unbroken (unreadable fault).message :=
  .append (Text.unbroken_ofList (by decide)) fault.unbroken_message

theorem unbroken_untokenizable (fault : TokenFault) (place : Location) :
    Unbroken (untokenizable fault place).message :=
  .append (Text.unbroken_ofList (by decide)) (fault.unbroken_message place)

/-- What only quotes names of unbroken tokens is reported in one line. -/
theorem unbroken_of_quotes {tokens : List Token} {cause : Cause}
    (hwords : ∀ t ∈ tokens, t.kind = .ident → Unbroken t.text) (h : cause.Quotes tokens) :
    Unbroken cause.message := by
  have hword {text : String} : IsWord tokens text → Unbroken text := by
    rintro ⟨t, ht, hkind, rfl⟩
    exact hwords t ht hkind
  induction cause with
  | missingValue key =>
    refine .append (.append ?_ (hword h)) ?_ <;> exact Text.unbroken_ofList (by decide)
  | unexpectedValue key =>
    refine .append (.append ?_ (hword h)) ?_ <;> exact Text.unbroken_ofList (by decide)
  | unknownOption key => exact .append (Text.unbroken_ofList (by decide)) (hword h)
  | notAnImpl marker =>
    have hmarker : Unbroken marker := by
      rcases h with rfl | h
      · rfl
      · exact hword h
    exact hmarker.append (Text.unbroken_ofList (by decide))
  | expected text =>
    refine .append (.append ?_ h) ?_ <;> exact Text.unbroken_ofList (by decide)
  | badInterfaceOptions reason ih => exact .append (Text.unbroken_ofList (by decide)) (ih h)
  | untokenizable => exact h.elim
  | unterminatedComment => exact h.elim
  | invalidUtf8 => exact h.elim
  | unreadable => exact h.elim
  | stated => exact h.elim
  | _ => exact Text.unbroken_ofList (by decide)

end Cause

theorem Diagnostic.text_of_standsAt {d : Diagnostic} {place : Location} (h : d.StandsAt place)
    (hcause : Unbroken d.cause.message) : d.text ≠ "" ∧ Unbroken d.text := by
  have htext : d.text =
      toString place.line ++ ":" ++ toString place.column ++ ": " ++ d.cause.message := by
    rw [text, h.1, h.2]
    rfl
  rw [htext]
  constructor
  · intro hempty
    have hlength := congrArg String.length hempty
    simp at hlength
  · refine (.append (.append (.append (Text.unbroken_nat _) ?_) (Text.unbroken_nat _)) ?_ :
      Unbroken _).append hcause
    all_goals exact Text.unbroken_ofList (by decide)

/-! ### Sources -/

namespace TokenTree

variable {text : List Char} {trees : List TokenTree}

/-- The names in a text have no line boundary. -/
theorem unbroken_word (htrees : ofText text = .ok trees) {t : Token} (ht : t ∈ flatten trees)
    (hkind : t.kind = .ident) : Unbroken t.text := by
  obtain ⟨_, _, hflatten⟩ := outcome_of_ofText htrees
  rw [hflatten] at ht
  obtain ⟨before, behind, htokens⟩ := List.append_of_mem ht
  have hpart : [t] <:+: (NestingScan.ofText text).significant := ⟨before, behind, by simp [htokens]⟩
  -- The rest of the text begins with the token, and the terminal that takes it knows its shape.
  obtain ⟨_, _, _, _, _, hcut, more, hfront⟩ := Spells.exists_cut hpart
  obtain ⟨_, after, _, _, _, _, _, hnext, _⟩ := hcut.exists_next hfront.symm
  rw [hkind] at hnext
  obtain ⟨hname, -⟩ := Terminal.ident_append_iff.1 (Terminal.ofKind_of_next? hnext)
  have hplain {name : List Char} (h : Terminal.isName name = true) :
      ∀ c ∈ name, Text.isLineBoundary c = false := by
    cases name with
    | nil => cases h
    | cons c name =>
      rw [Terminal.isName, Bool.and_eq_true, List.all_eq_true] at h
      exact List.forall_mem_cons.2
        ⟨Text.isLineBoundary_of_isNameChar (Terminal.isNameChar_of_isNameStart h.1),
          fun d hd => Text.isLineBoundary_of_isNameChar (h.2 d hd)⟩
  refine Text.unbroken_iff.2 ?_
  rcases hname with ⟨name, hraw, hname⟩ | hname
  · rw [hraw]
    exact List.forall_mem_cons.2 ⟨rfl, List.forall_mem_cons.2 ⟨rfl, hplain hname⟩⟩
  · exact hplain hname

/-- A text without trees is reported in one line. -/
theorem inLines_of_ofSource {source : String} {f : Failure} (h : ofSource source = .error f) :
    f.InLines := by
  obtain ⟨d, rfl, htext⟩ := exists_ofText_of_ofSource h
  obtain ⟨place, cause, rfl, hstops⟩ := stopsAt_of_ofText htext
  have hplace : (Diagnostic.mk cause (some place.line) (some place.column)).StandsAt place :=
    ⟨rfl, rfl⟩
  refine List.forall_mem_singleton.2 (Diagnostic.text_of_standsAt hplace ?_)
  cases hstops with
  | stray => exact Cause.unbroken_untokenizable _ _
  | comment => exact Text.unbroken_ofList (by decide)
  | closer => exact Cause.unbroken_untokenizable _ _
  | lastToken => exact Cause.unbroken_untokenizable _ _

theorem inLines_of_concerns {source : String} {f : Failure} (htrees : ofSource source = .ok trees)
    (h : f.Concerns (flatten trees)) : f.InLines := by
  intro d hd
  obtain ⟨⟨t, _, hstands⟩, hquotes⟩ := h d hd
  exact Diagnostic.text_of_standsAt hstands (Cause.unbroken_of_quotes
    (fun t ht hkind => unbroken_word (ofText_of_ofSource htrees) ht hkind) hquotes)

end TokenTree

namespace Generator

variable {source : String} {f : Failure}

theorem inLines_of_ofSource (h : ImplBlock.ofSource source ImplBlock.defaultMarker = .error f) :
    f.InLines := by
  cases htrees : TokenTree.ofSource source with
  | error f' =>
    rw [ImplBlock.ofSource, htrees] at h
    cases h
    exact TokenTree.inLines_of_ofSource htrees
  | ok trees =>
    exact TokenTree.inLines_of_concerns htrees
      ((ImplBlock.concerned_ofSource _ htrees).of_error h)

theorem exists_anchored {impls : List ImplBlock}
    (h : ImplBlock.ofSource source ImplBlock.defaultMarker = .ok impls) :
    ∃ trees, TokenTree.ofSource source = .ok trees ∧
      ∀ impl ∈ impls, impl.Anchored (TokenTree.flatten trees) := by
  cases htrees : TokenTree.ofSource source with
  | error f =>
    rw [ImplBlock.ofSource, htrees] at h
    cases h
  | ok trees => exact ⟨trees, rfl, (ImplBlock.concerned_ofSource _ htrees).of_ok h⟩

/-- Interfaces that cannot be built are reported in lines. -/
theorem inLines_of_interfaces {target : RuntimeTarget} {impls : List ImplBlock}
    (hblocks : ImplBlock.ofSource source ImplBlock.defaultMarker = .ok impls)
    (h : interfaces target impls = .error (.diagnosed f)) : f.InLines := by
  obtain ⟨trees, htrees, hanchored⟩ := exists_anchored hblocks
  exact TokenTree.inLines_of_concerns htrees ((concerned_interfaces target hanchored).of_error h)

/-- Interfaces that do not expand are reported in lines. -/
theorem inLines_of_expand {target : RuntimeTarget} {impls : List ImplBlock}
    {interfaces : List Interface}
    (hblocks : ImplBlock.ofSource source ImplBlock.defaultMarker = .ok impls)
    (hbuilt : Generator.interfaces target impls = .ok interfaces)
    (h : expand source interfaces = .error f) : f.InLines := by
  obtain ⟨trees, htrees, hanchored⟩ := exists_anchored hblocks
  refine TokenTree.inLines_of_concerns htrees
    ((concerned_expand source fun i hi => hanchored _ ?_).of_error h)
  rw [← impls_of_interfaces hbuilt]
  exact List.mem_map_of_mem hi

end Generator

/-- A file that is not to be had is reported in one line. -/
theorem FileRun.inLines_of_load {files : Files} {name : String} {f : Failure}
    (h : load files name = .error f) : f.InLines := by
  have hne {front back : String} (hfront : front ≠ "") : front ++ back ≠ "" := fun hempty =>
    hfront (String.append_eq_empty_iff.1 hempty).1
  rw [load] at h
  split at h
  · cases h
    exact List.forall_mem_singleton.2 ⟨hne (by decide), Cause.unbroken_unreadable _⟩
  · split at h
    · cases h
      exact List.forall_mem_singleton.2
        ⟨hne (hne (hne (by decide))), Cause.unbroken_invalidUtf8 _ _⟩
    · cases h

end LuaBindings
