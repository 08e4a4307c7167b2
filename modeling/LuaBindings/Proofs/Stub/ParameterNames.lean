import LuaBindings.Proofs.Adapter.Alignment
import LuaBindings.Proofs.Interface.Reports
import LuaBindings.Proofs.Splicing
import LuaBindings.Proofs.Stub.Convention
import LuaBindings.Proofs.Stub.PublishedNames
import Mathlib.Data.List.Nodup

/-!
# Parameter names in a stub

A stub calls a parameter what the source calls it, with an underscore behind a keyword of Lua.
The names are never keywords, but the prefix of a raw identifier stays, and a keyword may become
the name of another parameter (`parameterNames_of_read`).
-/

set_option autoImplicit false

namespace LuaBindings

/-! ### Identifiers of the source -/

def isRaw (name : String) : Bool := ['r', '#'].isPrefixOf name.toList

/-- An identifier is a name, behind the prefix of a raw one or not. -/
theorem Terminal.IsLexeme.raw_or_name {name : String} (h : IsLexeme .ident name) :
    isRaw name = true ∨ isName name.toList = true := by
  have hident : ident (name.toList ++ []) = some (name.toList, []) := by
    rw [List.append_nil]
    exact ofKind_of_next? h
  rcases (ident_append_iff.1 hident).1 with ⟨plain, hraw, -⟩ | hname
  · rw [isRaw, hraw]
    exact .inl rfl
  · exact .inr hname

/-- An interface that is read is one of a block of the source. -/
theorem Generator.exists_impl_of_read {g : Generator} {source : String}
    {interfaces : List Interface} {i : Interface} (h : g.read source = .ok interfaces)
    (hi : i ∈ interfaces) :
    ∃ impls, ImplBlock.ofSource source ImplBlock.defaultMarker = .ok impls ∧
      ∃ impl ∈ impls, Interface.ofImpl g.target impl = .ok i := by
  obtain ⟨impls, himpls, h⟩ := exists_of_bind_eq_ok h
  obtain ⟨⟨values, failures⟩, hcollect, h⟩ := exists_of_bind_eq_ok h
  obtain ⟨rfl, rfl⟩ := Fault.refuse_eq_ok h
  exact ⟨impls, Fault.ofExcept_eq_ok_iff.1 himpls,
    exists_of_forall₂ (Fault.collect_eq_ok hcollect).flip i hi⟩

/-- A method of an interface is a method of its block that is ready to be registered. -/
theorem Interface.exists_method_of_ofImpl {target : RuntimeTarget} {impl : ImplBlock}
    {i : Interface} {m : PreparedMethod} (h : Interface.ofImpl target impl = .ok i)
    (hm : m ∈ i.methods) : ∃ method ∈ impl.methods, PreparedMethod.ofMethod target method = .ok m := by
  rw [(Interface.ofImpl_eq_ok_iff.1 h).2.2.methods_eq] at hm
  obtain ⟨method, hmethod, hregistered⟩ := List.mem_filterMap.1 hm
  refine ⟨method, hmethod, ?_⟩
  cases hprepared : PreparedMethod.ofMethod target method with
  | error fault =>
    rw [Interface.registered?_of_error hprepared] at hregistered
    cases hregistered
  | ok p =>
    rw [Interface.registered?_of_ok hprepared] at hregistered
    split at hregistered <;> cases hregistered
    rfl

namespace PreparedMethod

def argumentNames (m : PreparedMethod) : List String := m.signature.args.map Argument.name

/-- The arguments of a method that is read are called by identifiers of the source. -/
theorem isLexeme_of_read {g : Generator} {source : String} {interfaces : List Interface}
    {i : Interface} {m : PreparedMethod} (hread : g.read source = .ok interfaces)
    (hi : i ∈ interfaces) (hm : m ∈ i.methods) :
    ∀ name ∈ m.argumentNames, Terminal.IsLexeme .ident name := by
  intro name hname
  obtain ⟨arg, harg, rfl⟩ := List.mem_map.1 hname
  obtain ⟨impls, hsource, impl, himpl, hi⟩ := Generator.exists_impl_of_read hread hi
  obtain ⟨method, hmethod, hprepared⟩ := Interface.exists_method_of_ofImpl hi hm
  obtain ⟨s, hs, h⟩ := exists_of_bind_eq_ok hprepared
  cases h
  obtain ⟨whole, hwhole, hstands⟩ := ImplBlock.standsIn_of_ofSource hsource
  obtain ⟨params, hsub, hgives⟩ := Adapter.exists_params (Adapter.splits_of_ofMethod hs)
  obtain ⟨p, hp, hgives⟩ := exists_of_forall₂ hgives.flip arg harg
  have hp := ((hstands impl himpl).1.methods method hmethod).params p (hsub hp)
  exact Adapter.isLexeme_of_binds hwhole hp hgives.binds

end PreparedMethod

namespace Stub

/-! ### One name -/

theorem parameterName_of_mem {name : String} (h : name ∈ luaKeywords) :
    parameterName name = name ++ "_" := by
  rw [parameterName, if_pos (List.contains_iff_mem.2 h)]

theorem parameterName_of_not_mem {name : String} (h : name ∉ luaKeywords) :
    parameterName name = name := by
  rw [parameterName, if_neg (mt List.contains_iff_mem.1 h)]

theorem concat_not_mem_luaKeywords : ∀ name ∈ luaKeywords, name ++ "_" ∉ luaKeywords := by
  decide

theorem parameterName_not_mem_luaKeywords (name : String) : parameterName name ∉ luaKeywords := by
  by_cases h : name ∈ luaKeywords
  · rw [parameterName_of_mem h]
    exact concat_not_mem_luaKeywords name h
  · rwa [parameterName_of_not_mem h]

/-- Two names become one just where one is what the other is replaced by. -/
theorem parameterName_eq_iff {a b : String} :
    parameterName a = parameterName b ↔
      a = b ∨ (a ∈ luaKeywords ∧ b = a ++ "_") ∨ (b ∈ luaKeywords ∧ a = b ++ "_") := by
  by_cases ha : a ∈ luaKeywords
  · by_cases hb : b ∈ luaKeywords
    · have hne : b ≠ a ++ "_" := by
        rintro rfl
        exact concat_not_mem_luaKeywords a ha hb
      have hne' : a ≠ b ++ "_" := by
        rintro rfl
        exact concat_not_mem_luaKeywords b hb ha
      rw [parameterName_of_mem ha, parameterName_of_mem hb]
      simp [hne, hne']
    · have hne : a ≠ b := by
        rintro rfl
        exact hb ha
      rw [parameterName_of_mem ha, parameterName_of_not_mem hb]
      simp [ha, hb, hne, eq_comm]
  · rw [parameterName_of_not_mem ha]
    by_cases hb : b ∈ luaKeywords
    · have hne : a ≠ b := by
        rintro rfl
        exact ha hb
      rw [parameterName_of_mem hb]
      simp [ha, hb, hne]
    · rw [parameterName_of_not_mem hb]
      simp [ha, hb]

/-- A name of Lua is a name of the source that is no keyword. -/
theorem Lua.isName_iff {name : String} :
    Lua.isName name.toList = true ↔ Terminal.isName name.toList = true ∧ name ∉ luaKeywords := by
  have hparts : (name.toList.head?.any Terminal.isNameStart && name.toList.all Terminal.isNameChar) =
      Terminal.isName name.toList := by
    cases name.toList with
    | nil => rfl
    | cons c rest =>
      rw [Terminal.isName, List.head?_cons, Option.any_some, List.all_cons]
      cases hc : Terminal.isNameStart c with
      | false => rfl
      | true => rw [Terminal.isNameChar_of_isNameStart hc, Bool.true_and, Bool.true_and]
  rw [Lua.isName, hparts, String.ofList_toList]
  simp

theorem isName_concat {name : String} (h : Terminal.isName name.toList = true) :
    Terminal.isName (name ++ "_").toList = true := by
  obtain ⟨c, more, heq, hc, hmore⟩ := Terminal.exists_of_isName h
  rw [String.toList_append, heq, List.cons_append, Terminal.isName, hc, Bool.true_and,
    List.all_append, List.all_eq_true.2 hmore]
  rfl

theorem isName_eq_false_of_isRaw {name : String} (h : isRaw name = true) :
    Terminal.isName name.toList = false := by
  obtain ⟨plain, heq⟩ := List.isPrefixOf_iff_prefix.1 h
  rw [← heq]
  rfl

theorem isRaw_eq_false_of_mem : ∀ keyword ∈ luaKeywords, isRaw keyword = false := by decide

/-- An identifier becomes a name of Lua unless it is raw. -/
theorem isName_parameterName_iff {name : String} (h : Terminal.IsLexeme .ident name) :
    Lua.isName (parameterName name).toList = true ↔ isRaw name = false := by
  rw [Lua.isName_iff, and_iff_left (parameterName_not_mem_luaKeywords name)]
  cases hraw : isRaw name with
  | true =>
    have hkeyword : name ∉ luaKeywords := by
      intro hmem
      rw [isRaw_eq_false_of_mem name hmem] at hraw
      cases hraw
    rw [parameterName_of_not_mem hkeyword, isName_eq_false_of_isRaw hraw]
    exact iff_of_false nofun nofun
  | false =>
    have hname : Terminal.isName name.toList = true := h.raw_or_name.resolve_left (by simp [hraw])
    refine iff_of_true ?_ rfl
    by_cases hkeyword : name ∈ luaKeywords
    · rw [parameterName_of_mem hkeyword]
      exact isName_concat hname
    · rwa [parameterName_of_not_mem hkeyword]

/-! ### The names of a method -/

theorem nodup_map_parameterName_iff {names : List String} (h : names.Nodup) :
    (names.map parameterName).Nodup ↔
      ∀ keyword ∈ luaKeywords, keyword ∈ names → keyword ++ "_" ∉ names := by
  constructor
  · intro hnodup keyword hkeyword hmem hconcat
    have hsame : parameterName keyword = parameterName (keyword ++ "_") :=
      parameterName_eq_iff.2 (.inr (.inl ⟨hkeyword, rfl⟩))
    have heq := List.inj_on_of_nodup_map hnodup hmem hconcat hsame
    apply concat_not_mem_luaKeywords keyword hkeyword
    rwa [← heq]
  · intro hapart
    refine h.map_on fun a ha b hb hsame => ?_
    rcases parameterName_eq_iff.1 hsame with heq | ⟨hkeyword, rfl⟩ | ⟨hkeyword, rfl⟩
    · exact heq
    · exact absurd hb (hapart a hkeyword ha)
    · exact absurd ha (hapart b hkeyword hb)

theorem self_mem_map_parameterName_iff {names : List String} :
    "self" ∈ names.map parameterName ↔ "self" ∈ names := by
  have hkeyword : "self" ∉ luaKeywords := by decide
  have hconcat : ∀ keyword ∈ luaKeywords, keyword ++ "_" ≠ "self" := by decide
  have hself : parameterName "self" = "self" := parameterName_of_not_mem hkeyword
  constructor
  · intro h
    obtain ⟨name, hname, heq⟩ := List.mem_map.1 h
    rw [← hself, parameterName_eq_iff] at heq
    rcases heq with rfl | ⟨hmem, hsame⟩ | ⟨hmem, -⟩
    · exact hname
    · exact absurd hsame.symm (hconcat name hmem)
    · exact absurd hmem hkeyword
  · intro h
    exact List.mem_map.2 ⟨"self", h, hself⟩

namespace FunctionStub

def listed (f : FunctionStub) : List String :=
  (if f.form = .bracket true then ["self"] else []) ++ f.params

theorem exists_text_eq (f : FunctionStub) :
    ∃ front, f.text = front ++ "(" ++ commaText f.listed ++ ") end" := by
  obtain ⟨table, key, form, params⟩ := f
  cases form with
  | dot =>
    refine ⟨s!"function {table}.{key}", ?_⟩
    simp only [text, listed, String.append_assoc]
    rfl
  | colon =>
    refine ⟨s!"function {table}:{key}", ?_⟩
    simp only [text, listed, String.append_assoc]
    rfl
  | bracket withSelf =>
    refine ⟨s!"{table}[\"{key}\"] = function", ?_⟩
    simp only [text, listed, arguments, takesSelf, String.append_assoc]
    cases withSelf <;> rfl

theorem nodup_listed_iff (f : FunctionStub) :
    f.listed.Nodup ↔ f.params.Nodup ∧ (f.form = .bracket true → "self" ∉ f.params) := by
  rw [listed]
  by_cases hform : f.form = .bracket true
  · rw [if_pos hform, List.singleton_append, List.nodup_cons, and_comm]
    simp [hform]
  · rw [if_neg hform, List.nil_append]
    simp [hform]

end FunctionStub

theorem params_functionStub (className : String) (m : PreparedMethod) :
    (functionStub className m).params = m.argumentNames.map parameterName := by
  rw [PreparedMethod.argumentNames, List.map_map]
  rfl

theorem not_mem_luaKeywords_of_mem_listed {className : String} {m : PreparedMethod} {name : String}
    (h : name ∈ (functionStub className m).listed) : name ∉ luaKeywords := by
  rw [FunctionStub.listed, params_functionStub, List.mem_append] at h
  rcases h with hself | hparam
  · have heq : name = "self" := by
      split at hself
      · exact List.mem_singleton.1 hself
      · cases hself
    rw [heq]
    decide
  · obtain ⟨argument, -, rfl⟩ := List.mem_map.1 hparam
    exact parameterName_not_mem_luaKeywords argument

/-- Only a key in brackets stands before a list with one more name, which may be a parameter's. -/
theorem nodup_listed_functionStub_iff (className : String) (m : PreparedMethod) :
    (functionStub className m).listed.Nodup ↔
      (functionStub className m).params.Nodup ∧
        (isPlainName m.signature.luaName = false → "self" ∉ m.argumentNames) := by
  rw [FunctionStub.nodup_listed_iff, params_functionStub, self_mem_map_parameterName_iff]
  refine and_congr_right fun _ => ?_
  by_cases hself : "self" ∈ m.argumentNames
  · have hcolon : FunctionStub.isColonCall m (m.argumentNames.map parameterName) = true := by
      cases hnames : m.argumentNames with
      | nil =>
        rw [hnames] at hself
        cases hself
      | cons name names => simp [FunctionStub.isColonCall]
    have hform : (functionStub className m).form =
        FunctionStub.keyForm m (functionStub className m).params := rfl
    rw [hform, params_functionStub, FunctionStub.keyForm, hcolon]
    cases isPlainName m.signature.luaName <;> simp [hself]
  · simp [hself]

/-! ### The lines of a method -/

def Annotates (name line : String) : Prop :=
  ∃ mark ∈ ["", "?"], ∃ luaType, line = "---@param " ++ name ++ mark ++ " " ++ luaType

/-- The lines annotate parameters and what is returned, and end in a statement with a list. -/
def Writes (lines annotated listed : List String) : Prop :=
  ∃ (annotations returned : List String) (front : String),
    lines = annotations ++ returned.map ("---@return " ++ ·) ++
      [front ++ "(" ++ commaText listed ++ ") end"] ∧
    List.Forall₂ Annotates annotated annotations

theorem annotates_argumentLine (a : Annotator) (className : String) (arg : Argument) :
    Annotates (parameterName arg.name) (argumentLine a className arg) := by
  rw [argumentLine, parameterLine]
  split
  · exact ⟨"?", by simp, _, by simp only [String.append_assoc]; rfl⟩
  · exact ⟨"", by simp, _, by simp only [String.append_assoc]; rfl⟩

theorem writes_functionLines (a : Annotator) (className : String) (m : PreparedMethod) :
    Writes (functionLines a className m) (functionStub className m).params
      (functionStub className m).listed := by
  obtain ⟨front, hfront⟩ := (functionStub className m).exists_text_eq
  refine ⟨m.signature.args.map (argumentLine a className), returns a className m, front, ?_, ?_⟩
  · rw [functionLines_eq, hfront]
  · rw [params_functionStub, PreparedMethod.argumentNames, List.map_map, List.forall₂_map_left_iff,
      List.forall₂_map_right_iff, List.forall₂_same]
    exact fun arg _ => annotates_argumentLine a className arg

theorem infix_flatMap {α β : Type} {x : α} {xs : List α} (h : x ∈ xs) (f : α → List β) :
    f x <:+: xs.flatMap f :=
  List.infix_of_mem_flatten (List.mem_map_of_mem h)

/-- The lines of a method that its class does not imply stand together in the stub. -/
theorem infix_lines {i : Interface} {interfaces : List Interface} {m : PreparedMethod}
    (a : Annotator) (moduleName : String) (hi : i ∈ interfaces) (hm : m ∈ i.methods)
    (himplied : isImplied m = false) :
    functionLines a i.className m <:+: lines a moduleName interfaces := by
  have hfunctions : m ∈ i.methods.filter fun m => !isImplied m := by simp [hm, himplied]
  have hmethod := infix_flatMap hfunctions fun m => "" :: functionLines a i.className m
  have hinterface := infix_flatMap hi fun i => interfaceLines a i ++ [""]
  have hlast : interfaceLines a i <:+: interfaceLines a i ++ [""] := (List.prefix_append _ _).isInfix
  calc functionLines a i.className m
      <:+: "" :: functionLines a i.className m := (List.suffix_cons _ _).isInfix
    _ <:+: (i.methods.filter fun m => !isImplied m).flatMap
          fun m => "" :: functionLines a i.className m := hmethod
    _ <:+: interfaceLines a i := (List.suffix_append _ _).isInfix
    _ <:+: interfaces.flatMap fun i => interfaceLines a i ++ [""] := hlast.trans hinterface
    _ <:+: lines a moduleName interfaces := (List.suffix_append _ _).isInfix

section
variable {g : Generator} {source : String} {interfaces : List Interface} {i : Interface}
  {m : PreparedMethod} (hread : g.read source = .ok interfaces) (hi : i ∈ interfaces)
  (hm : m ∈ i.methods)
include hread hi hm

theorem forall_isName_listed_iff :
    (∀ name ∈ (functionStub i.className m).listed, Lua.isName name.toList = true) ↔
      ∀ name ∈ m.argumentNames, isRaw name = false := by
  have hlexeme := PreparedMethod.isLexeme_of_read hread hi hm
  have hself : Lua.isName "self".toList = true := by decide
  have hparams : (∀ name ∈ (functionStub i.className m).params, Lua.isName name.toList = true) ↔
      ∀ name ∈ m.argumentNames, isRaw name = false := by
    rw [params_functionStub, List.forall_mem_map]
    exact forall₂_congr fun name hname => isName_parameterName_iff (hlexeme name hname)
  rw [← hparams, FunctionStub.listed, List.forall_mem_append]
  refine and_iff_right ?_
  split
  · exact List.forall_mem_singleton.2 hself
  · exact nofun

/-- What the lines of a method whose arguments have different names call its parameters. Nothing
is called by a keyword, and the names are names of Lua just if no argument is a raw identifier.
They differ just if no argument is called what a keyword among the arguments is replaced by. In
the list behind a key in brackets the receiver or the table is called `self` besides. -/
theorem parameterNames_of_read (hnames : m.argumentNames.Nodup) :
    (∀ a, Writes (functionLines a i.className m) (functionStub i.className m).params
      (functionStub i.className m).listed) ∧
    (isImplied m = false → ∀ a moduleName,
      functionLines a i.className m <:+: lines a moduleName interfaces) ∧
    (functionStub i.className m).params <:+ (functionStub i.className m).listed ∧
    (∀ name ∈ (functionStub i.className m).listed, name ∉ luaKeywords) ∧
    ((∀ name ∈ (functionStub i.className m).listed, Lua.isName name.toList = true) ↔
      ∀ name ∈ m.argumentNames, isRaw name = false) ∧
    ((functionStub i.className m).params.Nodup ↔
      ∀ keyword ∈ luaKeywords, keyword ∈ m.argumentNames → keyword ++ "_" ∉ m.argumentNames) ∧
    ((functionStub i.className m).listed.Nodup ↔
      (functionStub i.className m).params.Nodup ∧
        (isPlainName m.signature.luaName = false → "self" ∉ m.argumentNames)) := by
  refine ⟨fun a => writes_functionLines a i.className m,
    fun himplied a moduleName => infix_lines a moduleName hi hm himplied,
    List.suffix_append _ _, ?_, forall_isName_listed_iff hread hi hm, ?_,
    nodup_listed_functionStub_iff i.className m⟩
  · exact fun name hname => not_mem_luaKeywords_of_mem_listed hname
  · rw [params_functionStub]
    exact nodup_map_parameterName_iff hnames

end

/-- A keyword that no other argument is called after. -/
theorem parameterNames_of_read_repeat :
    ∃ interfaces, (Generator.fresh .default []).read
        "#[lua_methods]\nimpl T \x7b\n    fn end(repeat: bool, times: u8) \x7b\x7d\n\x7d\n" =
          .ok interfaces ∧
      ∃ i ∈ interfaces, ∃ m ∈ i.methods, m.argumentNames = ["repeat", "times"] ∧
        (functionStub i.className m).listed.Nodup ∧
        ∀ name ∈ (functionStub i.className m).listed, Lua.isName name.toList = true := by
  have hread : (((Generator.fresh .default []).read
      "#[lua_methods]\nimpl T \x7b\n    fn end(repeat: bool, times: u8) \x7b\x7d\n\x7d\n").toOption.any
        fun interfaces => interfaces.head?.any fun i => i.methods.head?.any fun m =>
          m.argumentNames == ["repeat", "times"]) = true := by
    decide +kernel
  obtain ⟨interfaces, hread, hinterfaces⟩ := (Option.any_eq_true _ _).1 hread
  obtain ⟨i, hi, hmethods⟩ := (Option.any_eq_true _ _).1 hinterfaces
  obtain ⟨m, hm, hnames⟩ := (Option.any_eq_true _ _).1 hmethods
  have hread := eq_ok_of_toOption hread
  have hi := List.mem_of_head? hi
  have hm := List.mem_of_head? hm
  have hnames := eq_of_beq hnames
  obtain ⟨-, -, -, -, hvalid, hannotated, hlisted⟩ :=
    parameterNames_of_read hread hi hm (by rw [hnames]; decide)
  rw [hnames] at hvalid hannotated hlisted
  refine ⟨interfaces, hread, i, hi, m, hm, hnames, hlisted.2 ⟨hannotated.2 ?_, ?_⟩, hvalid.2 ?_⟩
  · decide
  · exact fun _ => by decide
  · decide

/-- The arguments of a source's first method and the lines of the method. -/
def firstLines? (source : String) : Option (List String × List String) := do
  let interfaces ← ((Generator.fresh .default []).read source).toOption
  let i ← interfaces.head?
  let m ← i.methods.head?
  return (m.argumentNames, functionLines ⟨[], []⟩ i.className m)

/-- A raw identifier keeps its prefix, and two arguments that differ are called the same. -/
theorem parameterNames_fail :
    (firstLines? "#[lua_methods]\nimpl T \x7b\n    fn f(r#type: i32) \x7b\x7d\n\x7d\n" =
        some (["r#type"], ["---@param r#type integer", "function T:f(r#type) end"]) ∧
      Lua.isName "r#type".toList = false) ∧
    (firstLines? "#[lua_methods]\nimpl T \x7b\n    fn f(end: i32, end_: i32) \x7b\x7d\n\x7d\n" =
        some (["end", "end_"], ["---@param end_ integer", "---@param end_ integer",
          "function T:f(end_, end_) end"]) ∧
      ["end", "end_"].Nodup ∧ ¬["end_", "end_"].Nodup) := by
  refine ⟨⟨?_, ?_⟩, ?_, ?_, ?_⟩ <;> decide +kernel

end Stub
end LuaBindings
