import LuaBindings.FileRun
import LuaBindings.Proofs.Literal.Escapes
import LuaBindings.Proofs.Phases

/-!
# Strings that name no code point

A source ends in its bindings or in diagnostics, unless a name in its options is a string
with an escape that names a number beyond the last code point. The string is looked at only
if the entries before it in its list are valid. Such a source ends the whole run
(`bindings_diagnosed_iff`).
-/

set_option autoImplicit false

namespace LuaBindings

/-! ### Literals -/

namespace Literal

open Terminal (isHexDigit)

/-- An escape in the text gives a number beyond the last code point. -/
inductive Beyond : List Char → Prop
  | here {digits rest : List Char} (hdigits : ∀ c ∈ digits, isHexDigit c = true)
    (hlength : digits.length ≤ 6) (hbeyond : 0x110000 ≤ hexNumber digits) :
    Beyond ('\\' :: 'u' :: '\x7b' :: (digits ++ '\x7d' :: rest))
  | escape {c : Char} {rest : List Char} {e : Escape} (he : escape c rest = some e)
    (hrest : Beyond e.rest) : Beyond ('\\' :: c :: rest)
  | char {c : Char} {rest : List Char} (hc : c ≠ '\\') (hrest : Beyond rest) :
    Beyond (c :: rest)

/-- Only braces hold numbers that are large enough. -/
theorem escape_eq_none_iff {c : Char} {rest : List Char} :
    escape c rest = none ↔ c = 'u' ∧ ∃ digits after, rest = '\x7b' :: (digits ++ '\x7d' :: after) ∧
      (∀ c ∈ digits, isHexDigit c = true) ∧ digits.length ≤ 6 ∧ 0x110000 ≤ hexNumber digits := by
  have hescape : escape c rest = none ↔
      ∃ n after, numbered? (c :: rest) = some (n, after) ∧ 0x110000 ≤ n := by
    rw [escape]
    split
    · rename_i n after hnumber
      rw [Option.map_eq_none_iff, codePoint?_eq_none_iff, hnumber]
      simp
    · rename_i hnumber
      rw [hnumber]
      split <;> simp
  rw [hescape]
  constructor
  · rintro ⟨n, after, hnumber, hbeyond⟩
    unfold numbered? at hnumber
    split at hnumber
    · rename_i heq
      cases heq
      obtain ⟨⟨digits, tail⟩, hdigits, heq⟩ := Option.map_eq_some_iff.1 hnumber
      obtain ⟨rfl, rfl⟩ := Prod.mk.inj heq
      obtain ⟨rfl, hhex, _, hlength⟩ := bracedDigits?_eq_some_iff.1 hdigits
      exact ⟨rfl, digits, _, rfl, hhex, hlength, hbeyond⟩
    · rename_i heq
      cases heq
      obtain ⟨⟨digits, tail⟩, hdigits, heq⟩ := Option.map_eq_some_iff.1 hnumber
      obtain ⟨rfl, rfl⟩ := Prod.mk.inj heq
      exact absurd (hexNumber_twoDigits_lt hdigits) (Nat.not_lt.2 hbeyond)
    · cases hnumber
  · rintro ⟨rfl, digits, after, rfl, hhex, hlength, hbeyond⟩
    have hpos : 1 ≤ digits.length := by
      cases digits with
      | nil => exact absurd hbeyond (by decide)
      | cons => exact Nat.succ_pos _
    have hdigits := bracedDigits?_eq_some_iff.2 ⟨rfl (a := '\x7b' :: (digits ++ '\x7d' :: after)),
      hhex, hpos, hlength⟩
    exact ⟨hexNumber digits, after, by rw [numbered?, hdigits]; rfl, hbeyond⟩

theorem unescape_eq_none_iff (text : List Char) : unescape text = none ↔ Beyond text := by
  constructor
  · intro h
    fun_induction unescape text with
    | case1 => cases h
    | case2 => cases h
    | case3 c rest hnone =>
      obtain ⟨rfl, digits, after, rfl, hhex, hlength, hbeyond⟩ := escape_eq_none_iff.1 hnone
      exact .here hhex hlength hbeyond
    | case4 c rest e he _ ih => exact .escape he (ih (Option.map_eq_none_iff.1 h))
    | case5 c d rest hc ih => exact .char hc (ih (Option.map_eq_none_iff.1 h))
  · intro h
    induction h with
    | @here digits rest hhex hlength hbeyond =>
      have hnone := escape_eq_none_iff.2 ⟨rfl, digits, rest, rfl, hhex, hlength, hbeyond⟩
      rw [unescape_backslash, hnone, Option.bind_none]
    | escape he _ ih => rw [unescape_backslash, he, Option.bind_some, ih, Option.map_none]
    | char hc _ ih => rw [unescape_char hc, ih, Option.map_none]

/-- The text of a literal behind the letter of a byte literal. -/
def unprefixed : List Char → List Char
  | 'b' :: rest => rest
  | text => text

/-- A literal with an escape that gives a number beyond the last code point. Raw literals
have no escapes. -/
def NamesBeyond (literal : String) : Prop :=
  (unprefixed literal.toList).head? ≠ some 'r' ∧ Beyond (strip (unprefixed literal.toList))

theorem decode_eq_none_iff (literal : String) : decode literal = none ↔ NamesBeyond literal := by
  fun_cases decode literal with
  | case1 text tail hraw =>
    refine iff_of_false (by simp) fun h => h.1 ?_
    exact congrArg List.head? hraw
  | case2 text hraw =>
    rw [Option.map_eq_none_iff, unescape_eq_none_iff]
    refine (and_iff_right fun hhead => ?_).symm
    obtain ⟨rest, heq⟩ := List.head?_eq_some_iff.1 hhead
    exact hraw rest heq

/-- The numbers that escapes name, up to one beyond the last code point. -/
def namedNumbers (text : List Char) : List Nat :=
  match text with
  | [] => []
  | [_] => []
  | c :: d :: rest =>
    if c = '\\' then
      match h : escape d rest with
      | none => []
      | some e =>
        have : e.rest.length ≤ rest.length := escape_length h
        ((numbered? (d :: rest)).map Prod.fst).toList ++ namedNumbers e.rest
    else namedNumbers (d :: rest)
termination_by text.length

/-- A literal with an escape that names half a surrogate pair. -/
def namesSurrogate (literal : String) : Bool :=
  (unprefixed literal.toList).head? != some 'r' &&
    (namedNumbers (strip (unprefixed literal.toList))).any fun n => 0xd800 ≤ n && n < 0xe000

end Literal

/-! ### What faults with diagnostics only -/

namespace Fault

variable {α β σ : Type}

def Diagnosed (x : Except Fault α) : Prop := x ≠ .error .codePoint

theorem Diagnosed.bind {x : Except Fault α} {f : α → Except Fault β} (hx : Diagnosed x)
    (hf : ∀ a, Diagnosed (f a)) : Diagnosed (x >>= f) := by
  rw [Diagnosed, Ne, bind_eq_error_iff]
  rintro (h | ⟨a, _, h⟩)
  · exact hx h
  · exact hf a h

/-- Only the first of two steps faults, if the second has diagnostics only. -/
theorem bind_eq_codePoint_iff_left {x : Except Fault α} {f : α → Except Fault β}
    (hf : ∀ a, Diagnosed (f a)) : x >>= f = .error .codePoint ↔ x = .error .codePoint := by
  rw [bind_eq_error_iff]
  refine or_iff_left ?_
  rintro ⟨a, _, h⟩
  exact hf a h

theorem diagnosed_ok (a : α) : Diagnosed (.ok a : Except Fault α) := by
  rintro ⟨⟩

theorem diagnosed_pure (a : α) : Diagnosed (pure a : Except Fault α) := diagnosed_ok a

theorem diagnosed_atPlace (place : Location) (cause : Cause) :
    Diagnosed (atPlace place cause : Except Fault α) := by
  rintro ⟨⟩

theorem diagnosed_ofExcept (x : Except Failure α) : Diagnosed (ofExcept x) := by
  cases x <;> rintro ⟨⟩

theorem ofExcept_eq_ok_iff {x : Except Failure α} {a : α} : ofExcept x = .ok a ↔ x = .ok a := by
  cases x <;> simp [ofExcept]

theorem diagnosed_refuse (failures : List Failure) (a : α) :
    Diagnosed (refuse failures a) := diagnosed_ofExcept _

theorem diagnosed_foldlM {f : σ → α → Except Fault σ} (hf : ∀ s a, Diagnosed (f s a)) (s : σ)
    (list : List α) : Diagnosed (list.foldlM f s) := by
  induction list generalizing s with
  | nil => exact diagnosed_pure s
  | cons a list ih => exact (hf s a).bind fun s' => ih s'

theorem diagnosed_mapM {f : α → Except Fault β} (hf : ∀ a, Diagnosed (f a)) (list : List α) :
    Diagnosed (list.mapM f) := by
  induction list with
  | nil => exact diagnosed_pure []
  | cons a list ih =>
    rw [List.mapM_cons]
    exact (hf a).bind fun _ => ih.bind fun _ => diagnosed_pure _

theorem diagnosed_forM {f : α → Except Fault Unit} (hf : ∀ a, Diagnosed (f a)) (list : List α) :
    Diagnosed (list.forM f) := by
  induction list with
  | nil => exact diagnosed_pure ()
  | cons a list ih => exact (hf a).bind fun _ => ih

theorem split_eq_error_iff {x : Except Fault α} {fault : Fault} :
    split x = .error fault ↔ x = .error .codePoint ∧ fault = .codePoint := by
  rcases x with (_ | _) | _ <;> simp [split, eq_comm]

theorem Diagnosed.exists_split {x : Except Fault α} (h : Diagnosed x) :
    ∃ result, split x = .ok result := by
  cases hsplit : split x with
  | ok result => exact ⟨result, rfl⟩
  | error fault => exact absurd (split_eq_error_iff.1 hsplit).1 h

end Fault

open Fault (Diagnosed)

/-! ### Options -/

namespace OptionEntry

/-- The entry gives its key a string with an escape beyond the last code point. -/
def NamesBeyond (e : OptionEntry) : Prop :=
  ∃ name separator t, e = single name separator ⟨.literal, [t]⟩ ∧ t.kind.isString = true ∧
    Literal.NamesBeyond t.text

theorem nameValue_eq_codePoint_iff (e : OptionEntry) (cause : Cause) :
    e.nameValue cause = .error .codePoint ↔ e.NamesBeyond := by
  have hother (h : Diagnosed (e.nameValue cause)) (hno : ¬e.NamesBeyond) :
      e.nameValue cause = .error .codePoint ↔ e.NamesBeyond := iff_of_false h hno
  cases e with
  | bare name =>
    refine hother (Fault.diagnosed_atPlace _ _) ?_
    rintro ⟨_, _, _, heq, _⟩
    cases heq
  | list name opener entries =>
    refine hother (Fault.diagnosed_atPlace _ _) ?_
    rintro ⟨_, _, _, heq, _⟩
    cases heq
  | single name separator value =>
    obtain ⟨kind, tokens⟩ := value
    rw [nameValue]
    dsimp only
    split
    · refine iff_of_false (Fault.diagnosed_ok _) ?_
      rintro ⟨_, _, _, heq, _⟩
      cases heq
    · rename_i t
      have hiff : NamesBeyond (single name separator ⟨.literal, [t]⟩) ↔
          t.kind.isString = true ∧ Literal.NamesBeyond t.text := by
        constructor
        · rintro ⟨_, _, _, heq, h⟩
          cases heq
          exact h
        · exact fun h => ⟨name, separator, t, rfl, h⟩
      rw [hiff, ← Literal.decode_eq_none_iff]
      split
      · rename_i hstring
        cases hdecode : Literal.decode t.text with
        | some value => exact iff_of_false (Fault.diagnosed_ok _) (by simp)
        | none => exact iff_of_true rfl ⟨hstring, rfl⟩
      · rename_i hstring
        exact iff_of_false (Fault.diagnosed_atPlace _ _) fun h => hstring h.1
    · rename_i hliteral
      refine iff_of_false (Fault.diagnosed_atPlace _ _) ?_
      rintro ⟨_, _, t, heq, _⟩
      cases heq
      exact hliteral t rfl rfl

theorem bind_nameValue_eq_codePoint_iff {α : Type} (e : OptionEntry) (cause : Cause)
    (f : String → α) :
    (do return f (← e.nameValue cause) : Except Fault α) = .error .codePoint ↔
      e.NamesBeyond := by
  rw [Fault.bind_eq_codePoint_iff_left fun _ => Fault.diagnosed_pure _,
    nameValue_eq_codePoint_iff]

theorem diagnosed_requireBare (e : OptionEntry) : Diagnosed e.requireBare := by
  rw [requireBare]
  split
  · exact Fault.diagnosed_ok ()
  · exact Fault.diagnosed_atPlace _ _

theorem diagnosed_unknown {α : Type} (e : OptionEntry) : Diagnosed (e.unknown : Except Fault α) :=
  Fault.diagnosed_atPlace _ _

/-- A list of entries comes to one with the given key that names a number beyond the last
code point: those before it are valid. -/
def ReachesBeyond {σ : Type} (apply : σ → OptionEntry → Except Fault σ) (default : σ)
    (key : String) (entries : List OptionEntry) : Prop :=
  ∃ before e after options, entries = before ++ e :: after ∧
    before.foldlM apply default = .ok options ∧ e.key = key ∧ e.NamesBeyond

theorem foldlM_eq_codePoint_iff {σ : Type} {apply : σ → OptionEntry → Except Fault σ} {key : String}
    (happly : ∀ options e, apply options e = .error .codePoint ↔ e.key = key ∧ e.NamesBeyond)
    (default : σ) (entries : List OptionEntry) :
    entries.foldlM apply default = .error .codePoint ↔ ReachesBeyond apply default key entries := by
  rw [foldlM_eq_error_iff]
  simp only [happly]
  rfl

end OptionEntry

theorem FunctionOptions.diagnosed_ofEntries (entries : List OptionEntry) :
    Diagnosed (FunctionOptions.ofEntries entries) := by
  refine Fault.diagnosed_foldlM (fun options e => ?_) _ _
  rw [apply]
  split
  · exact e.diagnosed_requireBare.bind fun _ => Fault.diagnosed_pure _
  · exact e.diagnosed_unknown

namespace ItemOptions

theorem diagnosed_functionOptions (e : OptionEntry) : Diagnosed (functionOptions e) := by
  cases e with
  | bare name => exact Fault.diagnosed_ok _
  | single name separator value => exact Fault.diagnosed_atPlace _ _
  | list name opener entries => exact FunctionOptions.diagnosed_ofEntries entries

theorem apply_eq_codePoint_iff (options : ItemOptions) (e : OptionEntry) :
    apply options e = .error .codePoint ↔ e.key = "rename" ∧ e.NamesBeyond := by
  rw [apply]
  split
  · rename_i hkey
    refine iff_of_false ?_ (by simp [hkey])
    exact (diagnosed_functionOptions e).bind fun _ => Fault.diagnosed_pure _
  · split
    · rename_i hkey
      refine iff_of_false ?_ (by simp [hkey])
      exact e.diagnosed_requireBare.bind fun _ => Fault.diagnosed_pure _
    · split
      · rename_i hkey
        rw [and_iff_right hkey, e.bind_nameValue_eq_codePoint_iff]
      · rename_i hkey
        refine iff_of_false ?_ (by simp [hkey])
        split
        · exact e.diagnosed_requireBare.bind fun _ => Fault.diagnosed_pure _
        · exact e.diagnosed_unknown

end ItemOptions

theorem InterfaceOptions.apply_eq_codePoint_iff (options : InterfaceOptions) (e : OptionEntry) :
    apply options e = .error .codePoint ↔ e.key = "lua_name" ∧ e.NamesBeyond := by
  rw [apply]
  split
  · rename_i hkey
    rw [and_iff_right hkey, e.bind_nameValue_eq_codePoint_iff]
  · rename_i hkey
    exact iff_of_false e.diagnosed_unknown (by simp [hkey])

theorem Attribute.diagnosed_entries (a : Attribute) : Diagnosed a.entries := by
  rw [entries]
  split
  · exact Fault.diagnosed_atPlace _ _
  · exact Fault.diagnosed_ofExcept _

theorem ParameterOptions.diagnosed_ofAttributes (attributes : List Attribute) :
    Diagnosed (ParameterOptions.ofAttributes attributes) := by
  refine Fault.diagnosed_foldlM (fun options a => ?_) _ _
  refine a.diagnosed_entries.bind fun entries => Fault.diagnosed_foldlM (fun options e => ?_) _ _
  rw [apply]
  split
  · exact e.diagnosed_requireBare.bind fun _ => Fault.diagnosed_pure _
  · exact e.diagnosed_unknown

/-! ### Methods -/

theorem Parameter.diagnosed_isTaggedContext (p : Parameter) : Diagnosed p.isTaggedContext :=
  (ParameterOptions.diagnosed_ofAttributes p.attributes).bind fun _ => Fault.diagnosed_pure _

theorem Parameter.diagnosed_requireIdent (p : Parameter) : Diagnosed p.requireIdent := by
  rw [requireIdent]
  split
  · exact Fault.diagnosed_ok _
  · exact Fault.diagnosed_atPlace _ _

theorem Parameter.diagnosed_context? (target : RuntimeTarget) (p : Parameter) :
    Diagnosed (p.context? target) := by
  refine p.diagnosed_isTaggedContext.bind fun isTagged => ?_
  split
  · split
    · exact Fault.diagnosed_atPlace _ _
    · exact Fault.diagnosed_pure _
  · split
    · exact p.diagnosed_requireIdent.bind fun _ => Fault.diagnosed_pure _
    · exact Fault.diagnosed_pure _

theorem Parameter.diagnosed_requireNoContext (p : Parameter) : Diagnosed p.requireNoContext := by
  refine p.diagnosed_isTaggedContext.bind fun isTagged => ?_
  split
  · exact Fault.diagnosed_atPlace _ _
  · exact Fault.diagnosed_pure _

namespace Signature

theorem diagnosed_splitContext (target : RuntimeTarget) (params : List Parameter) :
    Diagnosed (splitContext target params) := by
  cases params with
  | nil => exact Fault.diagnosed_ok _
  | cons first rest =>
    refine (first.diagnosed_context? target).bind fun context => ?_
    cases context <;> exact Fault.diagnosed_pure _

/-- Once its options are read a method is classified, or there are diagnostics. -/
theorem diagnosed_classify (target : RuntimeTarget) (options : ItemOptions) (method : Method) :
    Diagnosed (classify target options method) := by
  refine (diagnosed_splitContext target method.params).bind fun split => ?_
  refine (Fault.diagnosed_forM Parameter.diagnosed_requireNoContext _).bind fun _ => ?_
  -- The two tests below each go on with the arguments, so this end is stated only once.
  have hargs : Diagnosed (split.2.mapM Parameter.argument) :=
    Fault.diagnosed_mapM (fun p => p.diagnosed_requireIdent.bind fun _ => Fault.diagnosed_pure _) _
  have hrest := hargs.bind fun args => Fault.diagnosed_pure
    (Signature.mk method options (dispatchOf options method.receiver) split.1 args)
  dsimp only
  split
  · refine (Fault.diagnosed_atPlace _ _).bind fun _ => ?_
    split
    · exact (Fault.diagnosed_atPlace _ _).bind fun _ => hrest
    · exact hrest
  · split
    · exact (Fault.diagnosed_atPlace _ _).bind fun _ => hrest
    · exact hrest

end Signature

/-- The options in the attributes of a method name a number beyond the last code point. -/
def Method.NamesBeyond (m : Method) : Prop :=
  ∃ a entries, m.attributes.find? Attribute.isOptions = some a ∧ a.entries = .ok entries ∧
    OptionEntry.ReachesBeyond ItemOptions.apply .default "rename" entries

theorem PreparedMethod.ofMethod_eq_codePoint_iff (target : RuntimeTarget) (m : Method) :
    PreparedMethod.ofMethod target m = .error .codePoint ↔ m.NamesBeyond := by
  have hoptions : ItemOptions.ofAttributes m.attributes = .error .codePoint ↔ m.NamesBeyond := by
    rw [ItemOptions.ofAttributes, Method.NamesBeyond]
    cases hfind : m.attributes.find? Attribute.isOptions with
    | none => exact iff_of_false (Fault.diagnosed_ok _) (by simp)
    | some a =>
      dsimp only
      rw [bind_eq_error_iff, or_iff_right a.diagnosed_entries]
      simp only [ItemOptions.ofEntries,
        OptionEntry.foldlM_eq_codePoint_iff ItemOptions.apply_eq_codePoint_iff]
      simp
  rw [PreparedMethod.ofMethod, Fault.bind_eq_codePoint_iff_left fun _ => Fault.diagnosed_pure _,
    Signature.ofMethod,
    Fault.bind_eq_codePoint_iff_left fun options => Signature.diagnosed_classify target options m,
    hoptions]

theorem PreparedMethods.ofMethods_eq_codePoint_iff (target : RuntimeTarget)
    (lifetime : Option String) (methods : List Method) :
    PreparedMethods.ofMethods target lifetime methods = .error .codePoint ↔
      ∃ m ∈ methods, m.NamesBeyond := by
  induction methods generalizing lifetime with
  | nil => exact iff_of_false (Fault.diagnosed_ok _) (by simp)
  | cons m rest ih =>
    rw [PreparedMethods.ofMethods, bind_eq_error_iff, Fault.split_eq_error_iff,
      and_iff_left rfl, PreparedMethod.ofMethod_eq_codePoint_iff, List.exists_mem_cons_iff]
    refine or_congr_right' fun hm => ?_
    rw [← PreparedMethod.ofMethod_eq_codePoint_iff target] at hm
    obtain ⟨result, hresult⟩ := Fault.Diagnosed.exists_split hm
    simp only [hresult, Except.ok.injEq, exists_eq_left']
    -- Whatever becomes of the first method, the others are prepared, with some lifetime.
    cases result with
    | error f =>
      dsimp only
      rw [Fault.bind_eq_codePoint_iff_left fun _ => Fault.diagnosed_pure _, ih]
    | ok prepared =>
      dsimp only
      split
      · exact ih lifetime
      · split
        · rw [Fault.bind_eq_codePoint_iff_left, ih]
          intro more
          split <;> exact Fault.diagnosed_pure _
        · rw [Fault.bind_eq_codePoint_iff_left fun _ => Fault.diagnosed_pure _, ih]

/-! ### Blocks and sources -/

/-- The options of a block or of one of its methods name a number beyond the last code
point. -/
def ImplBlock.NamesBeyond (impl : ImplBlock) : Prop :=
  (∃ args entries, impl.markerArgs = some args ∧ InterfaceOptions.readEntries args = .ok entries ∧
    OptionEntry.ReachesBeyond InterfaceOptions.apply .default "lua_name" entries) ∨
  ∃ m ∈ impl.methods, m.NamesBeyond

theorem Interface.ofImpl_eq_codePoint_iff (target : RuntimeTarget) (impl : ImplBlock) :
    Interface.ofImpl target impl = .error .codePoint ↔ impl.NamesBeyond := by
  have hoptions : InterfaceOptions.ofArguments impl.markerArgs = .error .codePoint ↔
      ∃ args entries, impl.markerArgs = some args ∧
        InterfaceOptions.readEntries args = .ok entries ∧
        OptionEntry.ReachesBeyond InterfaceOptions.apply .default "lua_name" entries := by
    cases impl.markerArgs with
    | none => exact iff_of_false (Fault.diagnosed_ok _) (by simp)
    | some args =>
      change (Fault.ofExcept (InterfaceOptions.readEntries args) >>= fun entries =>
        entries.foldlM InterfaceOptions.apply .default) = _ ↔ _
      rw [bind_eq_error_iff, or_iff_right (Fault.diagnosed_ofExcept _)]
      simp only [OptionEntry.foldlM_eq_codePoint_iff InterfaceOptions.apply_eq_codePoint_iff]
      cases hread : InterfaceOptions.readEntries args <;> simp [Fault.ofExcept, hread]
  rw [Interface.ofImpl, bind_eq_error_iff, Fault.split_eq_error_iff, and_iff_left rfl,
    hoptions, ImplBlock.NamesBeyond]
  refine or_congr_right' fun hno => ?_
  rw [← hoptions] at hno
  obtain ⟨result, hresult⟩ := Fault.Diagnosed.exists_split hno
  simp only [hresult, Except.ok.injEq, exists_eq_left']
  rw [Fault.bind_eq_codePoint_iff_left fun _ => Fault.diagnosed_refuse _ _,
    PreparedMethods.ofMethods_eq_codePoint_iff]

/-- A source with blocks that are all read, one of which names a number beyond the last code
point. -/
def Source.NamesBeyond (source : String) : Prop :=
  ∃ impls, ImplBlock.ofSource source ImplBlock.defaultMarker = .ok impls ∧
    ∃ impl ∈ impls, impl.NamesBeyond

/-- The entry gives the key a string with half a surrogate pair. -/
def OptionEntry.namesSurrogate (key : String) (e : OptionEntry) : Bool :=
  e.key == key &&
    match e with
    | single _ _ ⟨.literal, [t]⟩ => t.kind.isString && Literal.namesSurrogate t.text
    | _ => false

def Method.namesSurrogate (m : Method) : Bool :=
  match m.attributes.find? Attribute.isOptions with
  | none => false
  | some a =>
    match a.entries with
    | .ok entries => entries.any (OptionEntry.namesSurrogate "rename")
    | .error _ => false

def ImplBlock.namesSurrogate (impl : ImplBlock) : Bool :=
  (match impl.markerArgs with
    | none => false
    | some args =>
      match InterfaceOptions.readEntries args with
      | .ok entries => entries.any (OptionEntry.namesSurrogate "lua_name")
      | .error _ => false) ||
    impl.methods.any Method.namesSurrogate

/-- A name in the options of the source has half a surrogate pair, which no text in a file can
hold. -/
def Source.namesSurrogate (source : String) : Bool :=
  match ImplBlock.ofSource source ImplBlock.defaultMarker with
  | .ok impls => impls.any ImplBlock.namesSurrogate
  | .error _ => false

/-! ### Runs -/

namespace FileRun

def Unbroken (r : FileRun) : Prop := r.halt ≠ some .codePoint

variable {r : FileRun}

theorem halt_fail (r : FileRun) (input : String) (f : Failure) :
    (r.fail input f).halt = r.halt := by
  obtain ⟨log, hfail⟩ := r.fail_eq input f
  rw [hfail]

theorem Unbroken.say (hr : r.Unbroken) (line : String) : (r.say line).Unbroken := hr

theorem Unbroken.andThen {f : FileRun → FileRun} (hr : r.Unbroken)
    (hf : r.halt = none → (f r).Unbroken) : (r.andThen f).Unbroken := by
  rw [FileRun.andThen]
  split
  · exact hr
  · rename_i hnone
    exact hf (Option.not_isSome_iff_eq_none.1 hnone)

theorem Unbroken.makeDirectory (hr : r.Unbroken) (name : String) :
    (r.makeDirectory name).Unbroken := by
  rw [FileRun.makeDirectory]
  split
  · rintro ⟨⟩
  · split
    · exact hr
    · rintro ⟨⟩

theorem Unbroken.write (hr : r.Unbroken) (name text : String) : (r.write name text).Unbroken := by
  rw [FileRun.write]
  split
  · exact hr
  · rintro ⟨⟩

theorem Unbroken.writeStub (hr : r.Unbroken) (roots : Roots) (input : String)
    (interfaces : List Interface) : (FileRun.writeStub roots input interfaces r).Unbroken := by
  rw [FileRun.writeStub]
  split
  · exact hr
  · exact hr.write _ _

theorem Unbroken.emit (hr : r.Unbroken) (roots : Roots) (input source : String)
    (interfaces : List Interface) : (FileRun.emit roots input source interfaces r).Unbroken := by
  rw [FileRun.emit]
  split
  · rwa [Unbroken, halt_fail]
  · have hwrite := (hr.say s!"  {input} => {outputName roots input}").write
      (outputName roots input)
    exact (hwrite _).andThen fun _ => (hwrite _).writeStub roots input interfaces

theorem Unbroken.prepare (hr : r.Unbroken) (roots : Roots) :
    (FileRun.prepare roots r).Unbroken := by
  have houtput : (r.announce.makeDirectory roots.output).Unbroken := (hr.say _).makeDirectory _
  rw [FileRun.prepare]
  split
  · exact houtput
  · exact houtput.andThen fun _ => houtput.makeDirectory _

/-- A run that has halted takes no more inputs. -/
theorem foldl_takeInput_of_halted (roots : Roots) (h : r.halt.isSome) (inputs : List String) :
    inputs.foldl (takeInput roots) r = r := by
  induction inputs with
  | nil => rfl
  | cons input inputs ih =>
    rw [List.foldl_cons, takeInput, FileRun.andThen, if_pos h]
    exact ih

end FileRun

end LuaBindings
