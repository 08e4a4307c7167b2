import LuaBindings.Options
import LuaBindings.Proofs.Cursor
import LuaBindings.Proofs.Options.Rereading
import Mathlib.Data.List.Induction

/-!
# What options are set to

The entries that are accepted of an option list, and the options they leave: each key
is set by its last entry.
-/

set_option autoImplicit false

namespace LuaBindings

theorem atPlace_ne_ok {α : Type} (place : Location) (cause : Cause) (a : α) :
    (Fault.atPlace place cause : Except Fault α) ≠ .ok a := by
  rintro ⟨⟩

theorem foldlM_concat {ε α σ : Type} (f : σ → α → Except ε σ) (s : σ) (list : List α) (a : α) :
    (list ++ [a]).foldlM f s = list.foldlM f s >>= fun s' => f s' a := by
  rw [List.foldlM_append]
  simp only [List.foldlM_cons, List.foldlM_nil, bind_pure]

namespace OptionEntry

variable {e : OptionEntry}

def IsBare (e : OptionEntry) : Prop := ∃ name, e = .bare name

def hasEntries : OptionEntry → Bool
  | list _ _ (_ :: _) => true
  | _ => false

/-- The name that a key is given: an identifier, or a string that has a value. -/
inductive Names : OptionEntry → String → Prop
  | ident (name separator : Token) (tokens : List Token) :
      Names (single name separator ⟨.ident, tokens⟩) (String.join (tokens.map Token.text))
  | string (name separator t : Token) (value : String) (hstring : t.kind.isString = true)
      (hvalue : Literal.decode t.text = some value) :
      Names (single name separator ⟨.literal, [t]⟩) value

def lastOf (key : String) (entries : List OptionEntry) : Option OptionEntry :=
  entries.reverse.find? (·.key == key)

@[simp] theorem lastOf_nil (key : String) : lastOf key [] = none := rfl

theorem lastOf_concat (key : String) (entries : List OptionEntry) (e : OptionEntry) :
    lastOf key (entries ++ [e]) = if e.key = key then some e else lastOf key entries := by
  rw [lastOf, List.reverse_concat, List.find?_cons]
  by_cases h : e.key = key
  · simp [h]
  · simp [h, beq_eq_false_iff_ne.2 h, lastOf]

theorem bind_requireBare_eq_ok_iff {σ : Type} {x : Except Fault σ} {options : σ} :
    (do e.requireBare; x) = .ok options ↔ e.IsBare ∧ x = .ok options := by
  have hother {anchor : Token} (h : e.anchor? = some anchor) :
      (do e.requireBare; x) ≠ .ok options := by
    rw [requireBare, h]
    rintro ⟨⟩
  cases e with
  | bare name => exact (and_iff_right ⟨name, rfl⟩).symm
  | single name separator value => exact iff_of_false (hother rfl) (by rintro ⟨⟨_, ⟨⟩⟩, _⟩)
  | list name opener entries => exact iff_of_false (hother rfl) (by rintro ⟨⟨_, ⟨⟩⟩, _⟩)

theorem nameValue_eq_ok_iff {cause : Cause} {value : String} :
    e.nameValue cause = .ok value ↔ e.Names value := by
  cases e with
  | bare name => exact iff_of_false (atPlace_ne_ok _ _ _) (by rintro ⟨⟩)
  | list name opener entries => exact iff_of_false (atPlace_ne_ok _ _ _) (by rintro ⟨⟩)
  | single name separator given =>
    obtain ⟨kind, tokens⟩ := given
    constructor
    · intro h
      rw [nameValue] at h
      dsimp only at h
      split at h
      · cases h
        exact .ident name separator tokens
      · split at h
        · rename_i t hstring
          cases hdecode : Literal.decode t.text with
          | none =>
            rw [hdecode] at h
            cases h
          | some name' =>
            rw [hdecode] at h
            cases h
            exact .string name separator t value hstring hdecode
        · cases h
      · cases h
    · intro h
      cases h with
      | ident => rfl
      | string _ _ t _ hstring hvalue =>
        simp only [nameValue, hstring, hvalue]
        rfl

theorem Names.unique {name name' : String} (h : e.Names name) (h' : e.Names name') :
    name = name' := by
  cases h with
  | ident =>
    cases h'
    rfl
  | string _ _ t _ _ hvalue =>
    cases h' with
    | string _ _ _ _ _ hvalue' => exact Option.some.inj (hvalue.symm.trans hvalue')

theorem not_unknown_ok {σ : Type} {options : σ} : ¬(e.unknown : Except Fault σ) = .ok options :=
  atPlace_ne_ok _ _ _

end OptionEntry

open OptionEntry (lastOf lastOf_concat)

/-! ### Attributes -/

namespace Attribute

/-- The arguments of the attribute are written with the given entries. -/
def Lists (a : Attribute) (entries : List OptionEntry) : Prop :=
  ∃ (g : Group) (s : OptionEntry.EntriesSyntax), a.args = some g ∧ s.trees = g.inner ∧
    s.entries = entries

theorem entries_eq_ok_iff {a : Attribute} {entries : List OptionEntry} :
    a.entries = .ok entries ↔ a.Lists entries := by
  unfold Attribute.entries Lists
  cases hargs : a.args with
  | none =>
    refine iff_of_false (atPlace_ne_ok _ _ _) ?_
    rintro ⟨_, _, ⟨⟩, _⟩
  | some g =>
    have hread : Fault.ofExcept (OptionEntry.ofArguments g) = .ok entries ↔
        OptionEntry.ofArguments g = .ok entries := by
      cases OptionEntry.ofArguments g <;> simp [Fault.ofExcept]
    rw [hread]
    constructor
    · intro h
      obtain ⟨s, hs⟩ := OptionEntry.exists_of_readFrom h
      exact ⟨g, s, rfl, hs⟩
    · rintro ⟨g, s, hg, htrees, rfl⟩
      cases hg
      rw [OptionEntry.ofArguments, OptionEntry.readAll, ← htrees, s.readFrom_trees]

theorem Lists.unique {a : Attribute} {entries entries' : List OptionEntry} (h : a.Lists entries)
    (h' : a.Lists entries') : entries = entries' :=
  Except.ok.inj ((entries_eq_ok_iff.2 h).symm.trans (entries_eq_ok_iff.2 h'))

theorem Lists.exists_iff {a : Attribute} {entries : List OptionEntry}
    {P : List OptionEntry → Prop} (h : a.Lists entries) :
    (∃ entries', a.Lists entries' ∧ P entries') ↔ P entries := by
  constructor
  · rintro ⟨entries', h', hp⟩
    rwa [h.unique h']
  · exact fun hp => ⟨entries, h, hp⟩

end Attribute

/-! ### The options of a declaration -/

namespace FunctionOptions

theorem apply_eq_ok_iff {options options' : FunctionOptions} {e : OptionEntry} :
    apply options e = .ok options' ↔ (e.key = "mut" ∧ e.IsBare) ∧ options' = ⟨true⟩ := by
  unfold apply
  by_cases hkey : e.key = "mut"
  · rw [if_pos hkey, OptionEntry.bind_requireBare_eq_ok_iff]
    simp [pure_eq_ok_iff, hkey]
  · simp [hkey, OptionEntry.not_unknown_ok]

theorem ofEntries_eq_ok_iff {entries : List OptionEntry} {options : FunctionOptions} :
    ofEntries entries = .ok options ↔
      (∀ e ∈ entries, e.key = "mut" ∧ e.IsBare) ∧ options = ⟨!entries.isEmpty⟩ := by
  unfold ofEntries
  induction entries using List.reverseRecOn generalizing options with
  | nil => simp [pure_eq_ok_iff]
  | append_singleton entries e ih =>
    rw [foldlM_concat, bind_eq_ok_iff]
    have hne : (entries ++ [e]).isEmpty = false := by cases entries <;> rfl
    simp only [ih, apply_eq_ok_iff, List.forall_mem_append, List.forall_mem_singleton, hne]
    simp [and_assoc]

end FunctionOptions

namespace ItemOptions

inductive Accepts : OptionEntry → Prop
  | skip {e : OptionEntry} (hkey : e.key = "skip") (hbare : e.IsBare) : Accepts e
  | constructor {e : OptionEntry} (hkey : e.key = "constructor") (hbare : e.IsBare) : Accepts e
  | rename {e : OptionEntry} {name : String} (hkey : e.key = "rename") (hname : e.Names name) :
      Accepts e
  | function {e : OptionEntry} (hkey : e.key = "function") (hbare : e.IsBare) : Accepts e
  | functionList {name opener : Token} {entries : List OptionEntry} (hkey : name.text = "function")
      (hentries : ∀ e ∈ entries, e.key = "mut" ∧ e.IsBare) : Accepts (.list name opener entries)

structure SetBy (options : ItemOptions) (entries : List OptionEntry) : Prop where
  skip : options.skip = (lastOf "skip" entries).isSome
  constructor : options.constructor = (lastOf "constructor" entries).isSome
  rename (name : String) : options.rename = some name ↔
    ∃ e, lastOf "rename" entries = some e ∧ e.Names name
  function : options.function = (lastOf "function" entries).map fun e => ⟨e.hasEntries⟩

theorem SetBy.unique {options options' : ItemOptions} {entries : List OptionEntry}
    (h : options.SetBy entries) (h' : options'.SetBy entries) : options = options' := by
  have hrename : options.rename = options'.rename := by
    ext name
    rw [h.rename, h'.rename]
  cases options
  cases options'
  congr 1
  · exact h.skip.trans h'.skip.symm
  · exact h.function.trans h'.function.symm
  · exact h.constructor.trans h'.constructor.symm

/-- One more entry sets the option of its own key. -/
theorem SetBy.concat {options options' : ItemOptions} {entries : List OptionEntry}
    {e : OptionEntry} (h : options.SetBy entries)
    (hskip : options'.skip = if e.key = "skip" then true else options.skip)
    (hconstructor : options'.constructor =
      if e.key = "constructor" then true else options.constructor)
    (hrename : ∀ name, options'.rename = some name ↔
      if e.key = "rename" then e.Names name else options.rename = some name)
    (hfunction : options'.function =
      if e.key = "function" then some ⟨e.hasEntries⟩ else options.function) :
    options'.SetBy (entries ++ [e]) where
  skip := by
    rw [hskip, lastOf_concat, h.skip]
    split <;> rfl
  constructor := by
    rw [hconstructor, lastOf_concat, h.constructor]
    split <;> rfl
  rename name := by
    rw [hrename, lastOf_concat, h.rename]
    split <;> simp
  function := by
    rw [hfunction, lastOf_concat, h.function]
    split <;> rfl

theorem functionOptions_eq_ok_iff {e : OptionEntry} (hkey : e.key = "function")
    {options : FunctionOptions} :
    functionOptions e = .ok options ↔ Accepts e ∧ options = ⟨e.hasEntries⟩ := by
  cases e with
  | bare name =>
    have haccepts : Accepts (.bare name) := .function hkey ⟨name, rfl⟩
    simp [functionOptions, haccepts, OptionEntry.hasEntries, eq_comm]
  | single name separator value =>
    refine iff_of_false (atPlace_ne_ok _ _ _) ?_
    rintro ⟨haccepts, -⟩
    cases haccepts with
    | skip h => simp [h] at hkey
    | constructor h => simp [h] at hkey
    | rename h => simp [h] at hkey
    | function _ h => obtain ⟨_, ⟨⟩⟩ := h
  | list name opener entries =>
    have haccepts : Accepts (.list name opener entries) ↔
        ∀ e ∈ entries, e.key = "mut" ∧ e.IsBare := by
      refine ⟨?_, .functionList hkey⟩
      rintro (⟨h, _⟩ | ⟨h, _⟩ | ⟨h, _⟩ | ⟨_, _, ⟨⟩⟩ | ⟨_, hentries⟩)
      · simp [h] at hkey
      · simp [h] at hkey
      · simp [h] at hkey
      · exact hentries
    rw [functionOptions, FunctionOptions.ofEntries_eq_ok_iff, haccepts]
    cases entries <;> rfl

theorem SetBy.apply {options options' : ItemOptions} {entries : List OptionEntry} {e : OptionEntry}
    (hset : options.SetBy entries) (h : ItemOptions.apply options e = .ok options') :
    Accepts e ∧ options'.SetBy (entries ++ [e]) := by
  unfold ItemOptions.apply at h
  split at h
  · rename_i hkey
    obtain ⟨function, hfunction, h⟩ := exists_of_bind_eq_ok h
    obtain ⟨haccepts, rfl⟩ := (functionOptions_eq_ok_iff hkey).1 hfunction
    cases h
    exact ⟨haccepts,
      hset.concat (by simp [hkey]) (by simp [hkey]) (by simp [hkey]) (by simp [hkey])⟩
  · split at h
    · rename_i hkey
      obtain ⟨hbare, h⟩ := OptionEntry.bind_requireBare_eq_ok_iff.1 h
      cases h
      exact ⟨.skip hkey hbare,
        hset.concat (by simp [hkey]) (by simp [hkey]) (by simp [hkey]) (by simp [hkey])⟩
    · split at h
      · rename_i hkey
        obtain ⟨name, hname, h⟩ := exists_of_bind_eq_ok h
        have hname := OptionEntry.nameValue_eq_ok_iff.1 hname
        have hrename (name' : String) : some name = some name' ↔ e.Names name' :=
          ⟨fun heq => Option.some.inj heq ▸ hname,
            fun hname' => congrArg some (hname.unique hname')⟩
        cases h
        exact ⟨.rename hkey hname, hset.concat (by simp [hkey]) (by simp [hkey])
          (by simpa [hkey] using hrename) (by simp [hkey])⟩
      · split at h
        · rename_i hkey
          obtain ⟨hbare, h⟩ := OptionEntry.bind_requireBare_eq_ok_iff.1 h
          cases h
          exact ⟨.constructor hkey hbare,
            hset.concat (by simp [hkey]) (by simp [hkey]) (by simp [hkey]) (by simp [hkey])⟩
        · exact absurd h OptionEntry.not_unknown_ok

theorem Accepts.exists_apply {e : OptionEntry} (h : Accepts e) (options : ItemOptions) :
    ∃ options', ItemOptions.apply options e = .ok options' := by
  unfold ItemOptions.apply
  by_cases hfunction : e.key = "function"
  · rw [if_pos hfunction, (functionOptions_eq_ok_iff hfunction).2 ⟨h, rfl⟩]
    exact ⟨_, rfl⟩
  · rw [if_neg hfunction]
    cases h with
    | skip hkey hbare =>
      rw [if_pos hkey]
      exact ⟨_, OptionEntry.bind_requireBare_eq_ok_iff.2 ⟨hbare, rfl⟩⟩
    | constructor hkey hbare =>
      rw [if_neg (by simp [hkey]), if_neg (by simp [hkey]), if_pos hkey]
      exact ⟨_, OptionEntry.bind_requireBare_eq_ok_iff.2 ⟨hbare, rfl⟩⟩
    | rename hkey hname =>
      rw [if_neg (by simp [hkey]), if_pos hkey, OptionEntry.nameValue_eq_ok_iff.2 hname]
      exact ⟨_, rfl⟩
    | function hkey => exact absurd hkey hfunction
    | functionList hkey => exact absurd hkey hfunction

theorem setBy_of_ofEntries {entries : List OptionEntry} {options : ItemOptions}
    (h : ofEntries entries = .ok options) :
    (∀ e ∈ entries, Accepts e) ∧ options.SetBy entries := by
  unfold ofEntries at h
  induction entries using List.reverseRecOn generalizing options with
  | nil =>
    cases h
    exact ⟨by simp, by constructor <;> simp [default]⟩
  | append_singleton entries e ih =>
    rw [foldlM_concat] at h
    obtain ⟨before, hbefore, h⟩ := exists_of_bind_eq_ok h
    obtain ⟨haccepts, hset⟩ := ih hbefore
    obtain ⟨he, hset'⟩ := hset.apply h
    exact ⟨List.forall_mem_append.2 ⟨haccepts, by simpa using he⟩, hset'⟩

theorem exists_foldlM_apply {entries : List OptionEntry} (h : ∀ e ∈ entries, Accepts e)
    (options : ItemOptions) :
    ∃ options', entries.foldlM ItemOptions.apply options = .ok options' := by
  induction entries generalizing options with
  | nil => exact ⟨options, rfl⟩
  | cons e entries ih =>
    obtain ⟨next, hnext⟩ := (h e (.head _)).exists_apply options
    rw [List.foldlM_cons, hnext]
    exact ih (fun e he => h e (.tail _ he)) next

/-- Entries are taken for options just if each of them is accepted on its own. -/
theorem ofEntries_eq_ok_iff {entries : List OptionEntry} {options : ItemOptions} :
    ofEntries entries = .ok options ↔ (∀ e ∈ entries, Accepts e) ∧ options.SetBy entries := by
  refine ⟨setBy_of_ofEntries, ?_⟩
  rintro ⟨haccepts, hset⟩
  obtain ⟨options', h⟩ := exists_foldlM_apply haccepts default
  rwa [hset.unique (setBy_of_ofEntries h).2]

/-- The first option attribute is written with the given entries, or there are neither. -/
def ListedIn (attributes : List Attribute) (entries : List OptionEntry) : Prop :=
  match attributes.find? Attribute.isOptions with
  | none => entries = []
  | some a => a.Lists entries

theorem ListedIn.unique {attributes : List Attribute} {entries entries' : List OptionEntry}
    (h : ListedIn attributes entries) (h' : ListedIn attributes entries') : entries = entries' := by
  unfold ListedIn at h h'
  cases hfind : attributes.find? Attribute.isOptions with
  | none =>
    rw [hfind] at h h'
    exact Eq.trans h (Eq.symm h')
  | some a =>
    rw [hfind] at h h'
    exact Attribute.Lists.unique h h'

theorem ofAttributes_eq_ok_iff {attributes : List Attribute} {options : ItemOptions} :
    ofAttributes attributes = .ok options ↔
      ∃ entries, ListedIn attributes entries ∧ (∀ e ∈ entries, Accepts e) ∧
        options.SetBy entries := by
  unfold ofAttributes ListedIn
  cases attributes.find? Attribute.isOptions with
  | none =>
    have hdefault : default.SetBy [] := (setBy_of_ofEntries rfl).2
    constructor
    · intro h
      cases h
      exact ⟨[], rfl, by simp, hdefault⟩
    · rintro ⟨_, rfl, -, hset⟩
      rw [hset.unique hdefault]
  | some a =>
    dsimp only
    rw [bind_eq_ok_iff]
    simp only [Attribute.entries_eq_ok_iff, ofEntries_eq_ok_iff]

end ItemOptions

/-! ### The options of a parameter -/

namespace ParameterOptions

def Accepts (e : OptionEntry) : Prop := e.key = "context" ∧ e.IsBare

/-- Each option attribute is written with entries that are accepted. -/
def Accepted (attributes : List Attribute) : Prop :=
  ∀ a ∈ attributes, a.isOptions = true → ∃ entries, a.Lists entries ∧ ∀ e ∈ entries, Accepts e

/-- One of the option attributes has an entry that tags the parameter as the context. -/
def Tagged (attributes : List Attribute) : Prop :=
  ∃ a ∈ attributes, a.isOptions = true ∧ ∃ entries, a.Lists entries ∧
    ∃ e ∈ entries, e.key = "context"

theorem apply_eq_ok_iff {options options' : ParameterOptions} {e : OptionEntry} :
    apply options e = .ok options' ↔ Accepts e ∧ options' = ⟨true⟩ := by
  unfold apply Accepts
  by_cases hkey : e.key = "context"
  · rw [if_pos hkey, OptionEntry.bind_requireBare_eq_ok_iff]
    simp [pure_eq_ok_iff, hkey]
  · simp [hkey, OptionEntry.not_unknown_ok]

theorem foldlM_apply_eq_ok_iff {entries : List OptionEntry} {options options' : ParameterOptions} :
    entries.foldlM apply options = .ok options' ↔
      (∀ e ∈ entries, Accepts e) ∧
        (options'.context = true ↔ options.context = true ∨ ∃ e ∈ entries, e.key = "context") := by
  induction entries generalizing options with
  | nil =>
    obtain ⟨isContext⟩ := options
    obtain ⟨isContext'⟩ := options'
    cases isContext <;> cases isContext' <;> simp [pure, Except.pure]
  | cons e entries ih =>
    rw [List.foldlM_cons, bind_eq_ok_iff]
    simp only [apply_eq_ok_iff, ih, List.forall_mem_cons]
    constructor
    · rintro ⟨_, ⟨he, rfl⟩, haccepts, hcontext⟩
      exact ⟨⟨he, haccepts⟩, by simp [hcontext, he.1]⟩
    · rintro ⟨⟨he, haccepts⟩, hcontext⟩
      exact ⟨_, ⟨he, rfl⟩, haccepts, by simp [hcontext, he.1]⟩

theorem foldlM_entries_eq_ok_iff {attributes : List Attribute}
    {options options' : ParameterOptions} :
    attributes.foldlM (fun options a => do (← a.entries).foldlM apply options) options =
        .ok options' ↔
      (∀ a ∈ attributes, ∃ entries, a.Lists entries ∧ ∀ e ∈ entries, Accepts e) ∧
        (options'.context = true ↔ options.context = true ∨
          ∃ a ∈ attributes, ∃ entries, a.Lists entries ∧ ∃ e ∈ entries, e.key = "context") := by
  induction attributes generalizing options with
  | nil =>
    obtain ⟨isContext⟩ := options
    obtain ⟨isContext'⟩ := options'
    cases isContext <;> cases isContext' <;> simp [pure, Except.pure]
  | cons a attributes ih =>
    rw [List.foldlM_cons, bind_eq_ok_iff]
    simp only [bind_eq_ok_iff, Attribute.entries_eq_ok_iff, foldlM_apply_eq_ok_iff, ih]
    constructor
    · rintro ⟨next, ⟨entries, hlists, haccepts, hnext⟩, hrest, hcontext⟩
      refine ⟨List.forall_mem_cons.2 ⟨⟨entries, hlists, haccepts⟩, hrest⟩, ?_⟩
      simp only [hcontext, hnext, List.mem_cons, exists_eq_or_imp, hlists.exists_iff, or_assoc]
    · rintro ⟨haccepted, hcontext⟩
      obtain ⟨⟨entries, hlists, haccepts⟩, hrest⟩ := List.forall_mem_cons.1 haccepted
      simp only [List.mem_cons, exists_eq_or_imp, hlists.exists_iff] at hcontext
      let next : ParameterOptions := ⟨options.context || entries.any (·.key == "context")⟩
      have hnext : next.context = true ↔
          options.context = true ∨ ∃ e ∈ entries, e.key = "context" := by simp [next]
      exact ⟨next, ⟨entries, hlists, haccepts, hnext⟩, hrest, by rw [hcontext, hnext, or_assoc]⟩

theorem ofAttributes_eq_ok_iff {attributes : List Attribute} {options : ParameterOptions} :
    ofAttributes attributes = .ok options ↔
      Accepted attributes ∧ (options.context = true ↔ Tagged attributes) := by
  unfold ofAttributes
  rw [foldlM_entries_eq_ok_iff]
  simp [Accepted, Tagged, and_assoc]

end ParameterOptions
end LuaBindings
