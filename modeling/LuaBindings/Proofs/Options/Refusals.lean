import LuaBindings.Proofs.CodePoints
import LuaBindings.Proofs.Options.Settings

/-!
# Refused options

The first entry that is not valid decides how reading the options of a declaration fails, and
where. Of the valid entries only one kind is refused all the same: a name given by a string
with an escape beyond the last code point (`ofAttributes_outcome`).
-/

set_option autoImplicit false

namespace LuaBindings

/-- The value is an identifier or a string of either spelling. -/
def OptionValue.isName (v : OptionValue) : Bool :=
  match v.kind, v.tokens with
  | .ident, _ => true
  | .literal, [t] => t.kind.isString
  | _, _ => false

theorem OptionValue.isName_iff {v : OptionValue} :
    v.isName = true ↔ v.kind = .ident ∨ ∃ t, v = ⟨.literal, [t]⟩ ∧ t.kind.isString = true := by
  obtain ⟨kind, tokens⟩ := v
  cases kind with
  | ident => simp [isName]
  | path => simp [isName]
  | literal =>
    cases tokens with
    | nil => simp [isName]
    | cons t rest => cases rest <;> simp [isName]

namespace OptionEntry

def isBare : OptionEntry → Bool
  | bare _ => true
  | _ => false

variable {e : OptionEntry} {entries : List OptionEntry}

theorem isBare_iff : e.isBare = true ↔ e.IsBare := by
  cases e with
  | bare name => exact iff_of_true rfl ⟨name, rfl⟩
  | single => exact iff_of_false nofun nofun
  | list => exact iff_of_false nofun nofun

theorem exists_anchor_of_isBare (h : e.isBare = false) : ∃ anchor, e.anchor? = some anchor := by
  cases e with
  | bare => cases h
  | single name separator value => exact ⟨separator, rfl⟩
  | list name opener entries => exact ⟨opener, rfl⟩

theorem requireBare_of_anchor {anchor : Token} (h : e.anchor? = some anchor) :
    e.requireBare = Fault.atPlace anchor.start (.unexpectedValue e.key) := by
  rw [requireBare, h]

theorem not_namesBeyond_of_isBare (h : e.isBare = true) : ¬e.NamesBeyond := by
  rintro ⟨name, separator, t, rfl, -⟩
  cases h

/-- Names are what is valid for a name and has a value. -/
theorem exists_names_iff {name separator : Token} {value : OptionValue} :
    (∃ text, (single name separator value).Names text) ↔
      value.isName = true ∧ ¬(single name separator value).NamesBeyond := by
  rw [OptionValue.isName_iff]
  constructor
  · rintro ⟨text, h⟩
    cases h with
    | ident _ _ tokens =>
      constructor
      · exact .inl rfl
      · rintro ⟨_, _, _, ⟨⟩, _⟩
    | string _ _ t _ hstring hvalue =>
      constructor
      · exact .inr ⟨t, rfl, hstring⟩
      · rintro ⟨_, _, t', heq, -, hbeyond⟩
        cases heq
        rw [(Literal.decode_eq_none_iff _).2 hbeyond] at hvalue
        cases hvalue
  · rintro ⟨hident | ⟨t, rfl, hstring⟩, hbeyond⟩
    · obtain ⟨kind, tokens⟩ := value
      cases hident
      exact ⟨_, .ident name separator tokens⟩
    · cases hvalue : Literal.decode t.text with
      | some text => exact ⟨text, .string name separator t text hstring hvalue⟩
      | none =>
        have hnames := (Literal.decode_eq_none_iff _).1 hvalue
        exact absurd ⟨name, separator, t, rfl, hstring, hnames⟩ hbeyond

theorem nameValue_of_not_isName {name separator : Token} {value : OptionValue} {cause : Cause}
    (h : value.isName = false) :
    (single name separator value).nameValue cause = Fault.atPlace separator.start cause := by
  obtain ⟨kind, tokens⟩ := value
  cases kind with
  | ident => cases h
  | path => rfl
  | literal =>
    cases tokens with
    | nil => rfl
    | cons t rest =>
      cases rest with
      | nil =>
        have hstring : t.kind.isString = false := h
        simp only [nameValue, hstring]
        rfl
      | cons => rfl

/-! ### The order of entries -/

theorem lastOf_eq_some_iff {k : String} (hkeys : (entries.map key).Nodup) :
    lastOf k entries = some e ↔ e ∈ entries ∧ e.key = k := by
  induction entries using List.reverseRecOn with
  | nil => simp
  | append_singleton entries last ih =>
    rw [List.map_append, List.nodup_append] at hkeys
    obtain ⟨hentries, -, hdisjoint⟩ := hkeys
    have hlast : ∀ x ∈ entries, x.key ≠ last.key := fun x hx =>
      hdisjoint x.key (List.mem_map_of_mem hx) last.key (by simp)
    rw [lastOf_concat, List.mem_append, List.mem_singleton]
    by_cases hkey : last.key = k
    · rw [if_pos hkey]
      constructor
      · intro h
        cases h
        exact ⟨.inr rfl, hkey⟩
      · rintro ⟨he | rfl, hkey'⟩
        · exact absurd (hkey'.trans hkey.symm) (hlast e he)
        · rfl
    · rw [if_neg hkey, ih hentries]
      constructor
      · rintro ⟨he, hkey'⟩
        exact ⟨.inl he, hkey'⟩
      · rintro ⟨he | rfl, hkey'⟩
        · exact ⟨he, hkey'⟩
        · exact absurd hkey' hkey

theorem lastOf_perm {entries' : List OptionEntry} (h : entries.Perm entries')
    (hkeys : (entries.map key).Nodup) (k : String) :
    lastOf k entries = lastOf k entries' := by
  have hkeys' := (h.map key).nodup_iff.1 hkeys
  ext e
  rw [lastOf_eq_some_iff hkeys, lastOf_eq_some_iff hkeys', h.mem_iff]

end OptionEntry

/-! ### Entries of a function -/

namespace FunctionOptions

def isValid (e : OptionEntry) : Bool := e.key == "mut" && e.isBare

inductive Refuses (e : OptionEntry) : Location → Cause → Prop
  | unknown (hkey : e.key ≠ "mut") : Refuses e e.name.start (.unknownOption e.key)
  | given {anchor : Token} (hkey : e.key = "mut") (hgiven : e.anchor? = some anchor) :
    Refuses e anchor.start (.unexpectedValue e.key)

variable {e : OptionEntry} {place : Location} {cause : Cause}

theorem isValid_iff : isValid e = true ↔ e.key = "mut" ∧ e.IsBare := by
  rw [isValid, Bool.and_eq_true, beq_iff_eq, OptionEntry.isBare_iff]

theorem exists_refuses (h : isValid e = false) : ∃ place cause, Refuses e place cause := by
  by_cases hkey : e.key = "mut"
  · have hbare : e.isBare = false := by simpa [isValid, hkey] using h
    obtain ⟨anchor, hanchor⟩ := OptionEntry.exists_anchor_of_isBare hbare
    exact ⟨_, _, .given hkey hanchor⟩
  · exact ⟨_, _, .unknown hkey⟩

theorem Refuses.apply_eq (h : Refuses e place cause) (options : FunctionOptions) :
    apply options e = Fault.atPlace place cause := by
  unfold apply
  cases h with
  | unknown hkey =>
    rw [if_neg hkey]
    rfl
  | given hkey hgiven =>
    rw [if_pos hkey, OptionEntry.requireBare_of_anchor hgiven]
    rfl

theorem ofEntries_of_refuses {before after : List OptionEntry}
    (hbefore : ∀ x ∈ before, isValid x = true) (h : Refuses e place cause) :
    ofEntries (before ++ e :: after) = Fault.atPlace place cause := by
  have hvalid : ∀ x ∈ before, x.key = "mut" ∧ x.IsBare := fun x hx => isValid_iff.1 (hbefore x hx)
  have hfold : before.foldlM apply ⟨false⟩ = .ok ⟨!before.isEmpty⟩ :=
    ofEntries_eq_ok_iff.2 ⟨hvalid, rfl⟩
  rw [ofEntries]
  exact foldlM_eq_error_iff.2 ⟨before, e, after, _, rfl, hfold, h.apply_eq _⟩

end FunctionOptions

/-! ### Entries of a declaration -/

namespace ItemOptions

def bareKeys : List String := ["skip", "constructor", "function"]

/-- Flags stand alone, a name is an identifier or a string, and a function may be given a list. -/
def isValid : OptionEntry → Bool
  | .bare name => bareKeys.contains name.text
  | .single name _ value => name.text == "rename" && value.isName
  | .list name _ entries => name.text == "function" && entries.all FunctionOptions.isValid

inductive Refuses : OptionEntry → Location → Cause → Prop
  | unknown {e : OptionEntry} (hkey : e.key ∉ "rename" :: bareKeys) :
    Refuses e e.name.start (.unknownOption e.key)
  | given {e : OptionEntry} {anchor : Token} (hkey : e.key = "skip" ∨ e.key = "constructor")
    (hgiven : e.anchor? = some anchor) : Refuses e anchor.start (.unexpectedValue e.key)
  | missing {name : Token} (hkey : name.text = "rename") :
    Refuses (.bare name) name.start (.missingValue "rename")
  | unnamed {name separator : Token} {value : OptionValue} (hkey : name.text = "rename")
    (hname : value.isName = false) :
    Refuses (.single name separator value) separator.start .badRename
  | listed {name opener : Token} {entries : List OptionEntry} (hkey : name.text = "rename") :
    Refuses (.list name opener entries) opener.start .badRename
  | unlisted {name separator : Token} {value : OptionValue} (hkey : name.text = "function") :
    Refuses (.single name separator value) separator.start .badFunctionOption
  | entry {name opener : Token} {before after : List OptionEntry} {e : OptionEntry}
    {place : Location} {cause : Cause} (hkey : name.text = "function")
    (hbefore : ∀ x ∈ before, FunctionOptions.isValid x = true)
    (h : FunctionOptions.Refuses e place cause) :
    Refuses (.list name opener (before ++ e :: after)) place cause

variable {e : OptionEntry} {place : Location} {cause : Cause} {entries : List OptionEntry}

theorem accepts_iff : Accepts e ↔ isValid e = true ∧ ¬e.NamesBeyond := by
  constructor
  · intro h
    cases h with
    | skip hkey hbare =>
      obtain ⟨name, rfl⟩ := hbare
      have hname : name.text = "skip" := hkey
      exact ⟨by simp [isValid, hname, bareKeys], OptionEntry.not_namesBeyond_of_isBare rfl⟩
    | constructor hkey hbare =>
      obtain ⟨name, rfl⟩ := hbare
      have hname : name.text = "constructor" := hkey
      exact ⟨by simp [isValid, hname, bareKeys], OptionEntry.not_namesBeyond_of_isBare rfl⟩
    | function hkey hbare =>
      obtain ⟨name, rfl⟩ := hbare
      have hname : name.text = "function" := hkey
      exact ⟨by simp [isValid, hname, bareKeys], OptionEntry.not_namesBeyond_of_isBare rfl⟩
    | rename hkey hname =>
      cases e with
      | bare => cases hname
      | list => cases hname
      | single name separator value =>
        obtain ⟨hvalue, hbeyond⟩ := OptionEntry.exists_names_iff.1 ⟨_, hname⟩
        have htext : name.text = "rename" := hkey
        exact ⟨by simp [isValid, htext, hvalue], hbeyond⟩
    | functionList hkey hentries =>
      constructor
      · simpa [isValid, hkey, FunctionOptions.isValid_iff] using hentries
      · rintro ⟨_, _, _, ⟨⟩, _⟩
  · rintro ⟨hvalid, hbeyond⟩
    cases e with
    | bare name =>
      simp only [isValid, bareKeys, List.contains_iff_mem, List.mem_cons, List.not_mem_nil,
        or_false] at hvalid
      rcases hvalid with hkey | hkey | hkey
      · exact .skip hkey ⟨name, rfl⟩
      · exact .constructor hkey ⟨name, rfl⟩
      · exact .function hkey ⟨name, rfl⟩
    | single name separator value =>
      simp only [isValid, Bool.and_eq_true, beq_iff_eq] at hvalid
      obtain ⟨text, hname⟩ := OptionEntry.exists_names_iff.2 ⟨hvalid.2, hbeyond⟩
      exact .rename hvalid.1 hname
    | list name opener entries =>
      simp only [isValid, Bool.and_eq_true, beq_iff_eq, List.all_eq_true] at hvalid
      exact .functionList hvalid.1 fun x hx => FunctionOptions.isValid_iff.1 (hvalid.2 x hx)

theorem exists_refuses (h : isValid e = false) : ∃ place cause, Refuses e place cause := by
  by_cases hknown : e.key ∈ "rename" :: bareKeys
  · simp only [bareKeys, List.mem_cons, List.not_mem_nil, or_false] at hknown
    cases e with
    | bare name =>
      rcases hknown with hkey | hkey | hkey | hkey
      · exact ⟨_, _, .missing hkey⟩
      all_goals
        have hname : bareKeys.contains name.text = true := by
          rw [show name.text = _ from hkey]
          decide
        rw [isValid, hname] at h
        cases h
    | single name separator value =>
      rcases hknown with hkey | hkey | hkey | hkey
      · have htext : name.text = "rename" := hkey
        exact ⟨_, _, .unnamed hkey (by simpa [isValid, htext] using h)⟩
      · exact ⟨_, _, .given (.inl hkey) rfl⟩
      · exact ⟨_, _, .given (.inr hkey) rfl⟩
      · exact ⟨_, _, .unlisted hkey⟩
    | list name opener entries =>
      rcases hknown with hkey | hkey | hkey | hkey
      · exact ⟨_, _, .listed hkey⟩
      · exact ⟨_, _, .given (.inl hkey) rfl⟩
      · exact ⟨_, _, .given (.inr hkey) rfl⟩
      · have htext : name.text = "function" := hkey
        rw [isValid, htext, beq_self_eq_true, Bool.true_and] at h
        cases hfind : entries.find? fun x => !FunctionOptions.isValid x with
        | none =>
          have hall : ∀ x ∈ entries, FunctionOptions.isValid x = true := by simpa using hfind
          rw [List.all_eq_true.2 hall] at h
          cases h
        | some e =>
          obtain ⟨he, before, after, rfl, hbefore⟩ := List.find?_eq_some_iff_append.1 hfind
          obtain ⟨place, cause, hrefuses⟩ := FunctionOptions.exists_refuses (by simpa using he)
          exact ⟨place, cause, .entry hkey (by simpa using hbefore) hrefuses⟩
  · exact ⟨_, _, .unknown hknown⟩

theorem Refuses.apply_eq (h : Refuses e place cause) (options : ItemOptions) :
    apply options e = Fault.atPlace place cause := by
  unfold apply
  cases h with
  | unknown hkey =>
    simp only [bareKeys, List.mem_cons, List.not_mem_nil, or_false, not_or] at hkey
    rw [if_neg hkey.2.2.2, if_neg hkey.2.1, if_neg hkey.1, if_neg hkey.2.2.1]
    rfl
  | given hkey hgiven =>
    rcases hkey with hkey | hkey
    · rw [if_neg (by simp [hkey]), if_pos hkey, OptionEntry.requireBare_of_anchor hgiven]
      rfl
    · rw [if_neg (by simp [hkey]), if_neg (by simp [hkey]), if_neg (by simp [hkey]), if_pos hkey,
        OptionEntry.requireBare_of_anchor hgiven]
      rfl
  | @missing name hkey =>
    have hname : (OptionEntry.bare name).key = "rename" := hkey
    rw [if_neg (by simp [hname]), if_neg (by simp [hname]), if_pos hname,
      OptionEntry.nameValue, hname]
    rfl
  | @unnamed name separator value hkey hvalue =>
    have hname : (OptionEntry.single name separator value).key = "rename" := hkey
    rw [if_neg (by simp [hname]), if_neg (by simp [hname]), if_pos hname,
      OptionEntry.nameValue_of_not_isName hvalue]
    rfl
  | @listed name opener entries hkey =>
    have hname : (OptionEntry.list name opener entries).key = "rename" := hkey
    rw [if_neg (by simp [hname]), if_neg (by simp [hname]), if_pos hname]
    rfl
  | @unlisted name separator value hkey =>
    have hname : (OptionEntry.single name separator value).key = "function" := hkey
    rw [if_pos hname]
    rfl
  | @entry name opener before after e _ _ hkey hbefore h =>
    have hname : (OptionEntry.list name opener (before ++ e :: after)).key = "function" := hkey
    rw [if_pos hname, functionOptions, FunctionOptions.ofEntries_of_refuses hbefore h]
    rfl

theorem apply_of_beyond (hvalid : isValid e = true) (h : e.NamesBeyond) (options : ItemOptions) :
    apply options e = .error .codePoint := by
  obtain ⟨name, separator, t, rfl, hnames⟩ := h
  simp only [isValid, Bool.and_eq_true, beq_iff_eq] at hvalid
  exact (apply_eq_codePoint_iff options _).2 ⟨hvalid.1, name, separator, t, rfl, hnames⟩

theorem not_refuses_of_isValid (hvalid : isValid e = true) : ¬Refuses e place cause := by
  intro h
  have hrefused := h.apply_eq default
  by_cases hbeyond : e.NamesBeyond
  · rw [apply_of_beyond hvalid hbeyond] at hrefused
    cases hrefused
  · obtain ⟨options, hok⟩ := (accepts_iff.2 ⟨hvalid, hbeyond⟩).exists_apply default
    rw [hok] at hrefused
    cases hrefused

/-- An entry is refused just if it is not valid. -/
theorem isValid_eq_false_iff : isValid e = false ↔ ∃ place cause, Refuses e place cause := by
  constructor
  · exact exists_refuses
  · rintro ⟨place, cause, h⟩
    by_contra hvalid
    exact not_refuses_of_isValid (by simpa using hvalid) h

/-- How an entry fails: it is refused, or it is valid and names a number beyond the last code
point. -/
inductive Fails (e : OptionEntry) : Fault → Prop
  | refused {place : Location} {cause : Cause} (h : Refuses e place cause) :
    Fails e (.diagnosed (.atPlace place cause))
  | beyond (hvalid : isValid e = true) (h : e.NamesBeyond) : Fails e .codePoint

theorem apply_eq_error_iff {options : ItemOptions} {fault : Fault} :
    apply options e = .error fault ↔ Fails e fault := by
  constructor
  · intro h
    by_cases hvalid : isValid e = true
    · by_cases hbeyond : e.NamesBeyond
      · rw [apply_of_beyond hvalid hbeyond] at h
        cases h
        exact .beyond hvalid hbeyond
      · obtain ⟨next, hok⟩ := (accepts_iff.2 ⟨hvalid, hbeyond⟩).exists_apply options
        rw [hok] at h
        cases h
    · obtain ⟨place, cause, hrefuses⟩ := exists_refuses (by simpa using hvalid)
      rw [hrefuses.apply_eq options] at h
      cases h
      exact .refused hrefuses
  · intro h
    cases h with
    | refused h => exact h.apply_eq options
    | beyond hvalid h => exact apply_of_beyond hvalid h options

/-- The first entry that fails decides how the list fails. -/
theorem ofEntries_eq_error_iff {fault : Fault} :
    ofEntries entries = .error fault ↔
      ∃ before e after, entries = before ++ e :: after ∧ (∀ x ∈ before, Accepts x) ∧
        Fails e fault := by
  rw [ofEntries, foldlM_eq_error_iff]
  constructor
  · rintro ⟨before, e, after, options, heq, hbefore, h⟩
    exact ⟨before, e, after, heq, (setBy_of_ofEntries hbefore).1, apply_eq_error_iff.1 h⟩
  · rintro ⟨before, e, after, heq, hbefore, h⟩
    obtain ⟨options, hoptions⟩ := exists_foldlM_apply hbefore default
    exact ⟨before, e, after, options, heq, hoptions, apply_eq_error_iff.2 h⟩

/-! ### The order of entries -/

theorem SetBy.perm {options : ItemOptions} {entries' : List OptionEntry} (h : entries.Perm entries')
    (hkeys : (entries.map OptionEntry.key).Nodup) (hset : options.SetBy entries) :
    options.SetBy entries' where
  skip := by rw [← OptionEntry.lastOf_perm h hkeys, hset.skip]
  constructor := by rw [← OptionEntry.lastOf_perm h hkeys, hset.constructor]
  rename name := by rw [← OptionEntry.lastOf_perm h hkeys, hset.rename]
  function := by rw [← OptionEntry.lastOf_perm h hkeys, hset.function]

/-- Entries with different keys set the same in every order. -/
theorem ofEntries_perm {entries' : List OptionEntry} (h : entries.Perm entries')
    (hkeys : (entries.map OptionEntry.key).Nodup) {options : ItemOptions}
    (hok : ofEntries entries = .ok options) : ofEntries entries' = .ok options := by
  obtain ⟨haccepts, hset⟩ := ofEntries_eq_ok_iff.1 hok
  exact ofEntries_eq_ok_iff.2 ⟨fun e he => haccepts e (h.mem_iff.2 he), hset.perm h hkeys⟩

/-- If all that fail do so alike, the order makes no difference to the failure. -/
theorem ofEntries_error_perm {entries' : List OptionEntry} (h : entries.Perm entries')
    {fault : Fault} (halike : ∀ e ∈ entries, ∀ fault', Fails e fault' → fault' = fault)
    (herror : ofEntries entries = .error fault) : ofEntries entries' = .error fault := by
  cases hresult : ofEntries entries' with
  | ok options =>
    obtain ⟨before, e, after, rfl, -, hfails⟩ := ofEntries_eq_error_iff.1 herror
    have haccepts := (ofEntries_eq_ok_iff.1 hresult).1 e (h.mem_iff.1 (by simp))
    obtain ⟨next, hok⟩ := haccepts.exists_apply default
    rw [apply_eq_error_iff.2 hfails] at hok
    cases hok
  | error fault' =>
    obtain ⟨before, e, after, rfl, -, hfails⟩ := ofEntries_eq_error_iff.1 hresult
    rw [halike e (h.mem_iff.2 (by simp)) fault' hfails]

/-- Arguments that are no entries are refused as such. Of entries, the first that fails decides,
and if none does, each option is what the last entry with its key makes it. Valid entries fail
only if they name a number beyond the last code point. -/
theorem ofAttributes_outcome {attributes : List Attribute} {a : Attribute} {g : Group}
    (hfind : attributes.find? Attribute.isOptions = some a) (hargs : a.args = some g) :
    (∀ f, OptionEntry.ofArguments g = .error f → ofAttributes attributes = .error (.diagnosed f)) ∧
    ∀ entries, OptionEntry.ofArguments g = .ok entries →
      ((∃ options, ofAttributes attributes = .ok options) ↔
        ∀ e ∈ entries, isValid e = true ∧ ¬e.NamesBeyond) ∧
      (∀ options, ofAttributes attributes = .ok options → options.SetBy entries) ∧
      (∀ fault, ofAttributes attributes = .error fault ↔
        ∃ before e after, entries = before ++ e :: after ∧
          (∀ x ∈ before, isValid x = true ∧ ¬x.NamesBeyond) ∧ Fails e fault) ∧
      (∀ e, isValid e = false ↔ ∃ place cause, Refuses e place cause) ∧
      ∀ entries', entries.Perm entries' →
        ((entries.map OptionEntry.key).Nodup → ∀ options,
          ofAttributes attributes = .ok options → ofEntries entries' = .ok options) ∧
        ∀ fault, (∀ e ∈ entries, ∀ fault', Fails e fault' → fault' = fault) →
          ofAttributes attributes = .error fault → ofEntries entries' = .error fault := by
  have hread : ofAttributes attributes =
      (Fault.ofExcept (OptionEntry.ofArguments g) >>= ofEntries) := by
    unfold ofAttributes Attribute.entries
    rw [hfind]
    dsimp only
    rw [hargs]
  constructor
  · intro f hf
    rw [hread, hf]
    rfl
  · intro entries hentries
    have hresult : ofAttributes attributes = ofEntries entries := by
      rw [hread, hentries]
      rfl
    simp only [hresult, ← accepts_iff]
    refine ⟨?_, ?_, fun fault => ofEntries_eq_error_iff, fun e => isValid_eq_false_iff, ?_⟩
    · constructor
      · rintro ⟨options, hok⟩
        exact (ofEntries_eq_ok_iff.1 hok).1
      · intro haccepts
        exact exists_foldlM_apply haccepts default
    · intro options hok
      exact (ofEntries_eq_ok_iff.1 hok).2
    · intro entries' h
      exact ⟨fun hkeys options => ofEntries_perm h hkeys, fun fault => ofEntries_error_perm h⟩

def attributesOf (source : String) : List Attribute :=
  ((TokenTree.ofText source.toList).toOption.map fun trees => (Attribute.leading trees).1).getD []

def entriesOf? (source : String) : Option (List OptionEntry) := do
  let a ← (attributesOf source).find? Attribute.isOptions
  let g ← a.args
  (OptionEntry.ofArguments g).toOption

theorem exists_of_entriesOf? {source : String} {entries : List OptionEntry}
    (h : entriesOf? source = some entries) :
    ∃ a g, (attributesOf source).find? Attribute.isOptions = some a ∧ a.args = some g ∧
      OptionEntry.ofArguments g = .ok entries := by
  obtain ⟨a, ha, h⟩ := Option.bind_eq_some_iff.1 h
  obtain ⟨g, hg, h⟩ := Option.bind_eq_some_iff.1 h
  exact ⟨a, g, ha, hg, eq_ok_of_toOption h⟩

/-- A repeated key, and a list. -/
theorem ofAttributes_outcome_repeated :
    let attributes := attributesOf "#[lua(rename: \"a\", function(mut), rename = b,)]"
    ∃ a g entries, attributes.find? Attribute.isOptions = some a ∧ a.args = some g ∧
      OptionEntry.ofArguments g = .ok entries ∧
      ofAttributes attributes = .ok ⟨false, some "b", some ⟨true⟩, false⟩ ∧
      (∀ e ∈ entries, isValid e = true ∧ ¬e.NamesBeyond) ∧
      SetBy ⟨false, some "b", some ⟨true⟩, false⟩ entries := by
  intro attributes
  have hread : (entriesOf? "#[lua(rename: \"a\", function(mut), rename = b,)]").isSome = true ∧
      (ofAttributes attributes).toOption = some ⟨false, some "b", some ⟨true⟩, false⟩ := by
    decide +kernel
  obtain ⟨entries, hentries⟩ := Option.isSome_iff_exists.1 hread.1
  obtain ⟨a, g, hfind, hargs, hread'⟩ := exists_of_entriesOf? hentries
  have hok := eq_ok_of_toOption hread.2
  obtain ⟨hvalid, hset, -⟩ := (ofAttributes_outcome hfind hargs).2 entries hread'
  exact ⟨a, g, entries, hfind, hargs, hread', hok, hvalid.1 ⟨_, hok⟩, hset _ hok⟩

/-- All the entries are valid, and a later one would decide. Still the first name ends the
reading, and neither options nor a diagnostic are given. -/
theorem valid_entries_fail :
    let source := "#[lua(rename = \"\\u\x7b110000\x7d\", rename = ok)]"
    (entriesOf? source).map (fun entries => entries.all isValid) = some true ∧
      ofAttributes (attributesOf source) = .error .codePoint := by
  decide +kernel

end ItemOptions
end LuaBindings
