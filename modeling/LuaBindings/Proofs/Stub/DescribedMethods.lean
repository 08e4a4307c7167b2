import LuaBindings.Proofs.CamelCase
import LuaBindings.Proofs.Stub.ParameterNames

/-!
# Which methods a stub describes

A name that is published in camel case has no underscores. So only constructors and metamethods
are published under names that begin with two of them, unless the options give another name, and
a stub leaves out just these methods. It has one block of lines for each of the others, in the
order of their declarations (`describes_unless_reserved`).
-/

set_option autoImplicit false

namespace LuaBindings

/-! ### Published names -/

/-- Whether a name begins with the two underscores of a metamethod. -/
def IsUnderscored (name : String) : Prop := ['_', '_'] <+: name.toList

instance (name : String) : Decidable (IsUnderscored name) :=
  inferInstanceAs (Decidable (['_', '_'] <+: name.toList))

theorem isUnderscored_of_mem : ∀ name ∈ metamethods, IsUnderscored name := by decide

theorem isUnderscored_callMetamethod : IsUnderscored callMetamethod := by decide

theorem not_isUnderscored_camelCase (name : String) : ¬IsUnderscored (Text.camelCase name) := by
  rintro ⟨rest, h⟩
  apply Text.underscore_notMem_camelCase name
  rw [← h]
  exact List.mem_cons_self

theorem isUnderscored_publishedName_iff (name : String) :
    IsUnderscored (publishedName name) ↔ isMetamethod name = true := by
  rw [publishedName]
  split
  · rename_i h
    have hmem : name ∈ metamethods := List.contains_iff_mem.1 h
    simp [h, isUnderscored_of_mem name hmem]
  · rename_i h
    simp [h, not_isUnderscored_camelCase]

namespace Signature

/-- Without another name, only constructors and metamethods are published under names that begin
with two underscores. -/
theorem isUnderscored_luaName_iff {s : Signature} (h : s.options.rename = none) :
    IsUnderscored s.luaName ↔ s.options.constructor = true ∨ s.isMeta = true := by
  rw [luaName, h, Option.getD_none]
  by_cases hconstructor : s.options.constructor = true
  · rw [if_pos hconstructor]
    simp [hconstructor, isUnderscored_callMetamethod]
  · rw [if_neg hconstructor, isUnderscored_publishedName_iff]
    simp [hconstructor, isMeta]

end Signature

/-! ### Blocks of lines -/

/-- Blocks that begin with a separator are read back from the list that they make. -/
theorem splitOn_flatMap {α β : Type} [BEq α] [LawfulBEq α] {x : α} {f : β → List α}
    {items : List β} (hitems : ∀ b ∈ items, x ∉ f b) {block : List α} (hblock : x ∉ block)
    (tail : List α) :
    (block ++ (items.flatMap (fun b => x :: f b) ++ x :: tail)).splitOn x =
      block :: (items.map f ++ tail.splitOn x) := by
  induction items generalizing block with
  | nil => exact List.splitOn_append_cons_self_of_not_mem hblock tail
  | cons b items ih =>
    obtain ⟨hb, hitems⟩ := List.forall_mem_cons.1 hitems
    rw [List.flatMap_cons, List.cons_append, List.cons_append,
      List.splitOn_append_cons_self_of_not_mem hblock, List.append_assoc, ih hitems hb]
    rfl

namespace Stub

def headLines (moduleName : String) : List String :=
  ["---@meta", s!"-- LuaCATS type definitions for {moduleName}", "-- Auto-generated, do not edit"]

def classLines (a : Annotator) (i : Interface) : List String :=
  [s!"---@class {i.className}"] ++ (i.methods.filter isConstructor).map (overloadLine a i.className) ++
    [s!"{i.className} = \x7b\x7d"]

/-- The blocks of an interface: its class, and every method that the class does not imply. -/
def blocks (a : Annotator) (i : Interface) : List (List String) :=
  classLines a i :: (i.methods.filter fun m => !isImplied m).map (functionLines a i.className)

theorem blank_notMem_headLines (moduleName : String) : "" ∉ headLines moduleName := by
  simp [headLines, toString]

theorem blank_notMem_classLines (a : Annotator) (i : Interface) : "" ∉ classLines a i := by
  simp [classLines, overloadLine_eq, toString]

theorem blank_notMem_functionLines (a : Annotator) (className : String) (m : PreparedMethod) :
    "" ∉ functionLines a className m := by
  obtain ⟨annotations, returned, front, hlines, hannotates⟩ := writes_functionLines a className m
  have hannotations : "" ∉ annotations := by
    intro h
    obtain ⟨name, -, mark, -, luaType, hline⟩ := exists_of_forall₂ hannotates.flip "" h
    simp at hline
  simp [hlines, hannotations]

theorem splitOn_interfaceLines (a : Annotator) (interfaces : List Interface) :
    (interfaces.flatMap fun i => interfaceLines a i ++ [""]).splitOn "" =
      interfaces.flatMap (blocks a) ++ [[]] := by
  induction interfaces with
  | nil => rfl
  | cons i interfaces ih =>
    have hfunctions : ∀ m ∈ i.methods.filter fun m => !isImplied m,
        "" ∉ functionLines a i.className m :=
      fun m _ => blank_notMem_functionLines a i.className m
    have hlines : interfaceLines a i = classLines a i ++
        (i.methods.filter fun m => !isImplied m).flatMap
          fun m => "" :: functionLines a i.className m := rfl
    rw [List.flatMap_cons, List.flatMap_cons, hlines, List.append_assoc, List.append_assoc,
      List.append_assoc, List.singleton_append,
      splitOn_flatMap hfunctions (blank_notMem_classLines a i), ih, ← List.cons_append]
    rfl

/-- The blank lines of a stub set its head, its classes and their methods apart. -/
theorem splitOn_lines (a : Annotator) (moduleName : String) (interfaces : List Interface) :
    (lines a moduleName interfaces).splitOn "" =
      headLines moduleName :: (interfaces.flatMap (blocks a) ++ [[]]) := by
  rw [← splitOn_interfaceLines]
  exact List.splitOn_append_cons_self_of_not_mem (blank_notMem_headLines moduleName) _

/-- Whether a method is published under an underscored name: as a constructor, by its own name, or
by the name that its options give. -/
def isReserved (m : PreparedMethod) : Bool :=
  m.signature.options.constructor ||
    match m.signature.options.rename with
    | none => m.signature.isMeta
    | some name => decide (IsUnderscored name)

theorem isImplied_eq (m : PreparedMethod) : isImplied m = isReserved m := by
  have himplied : isImplied m = decide (IsUnderscored m.signature.luaName) := by
    rw [isImplied, Bool.eq_iff_iff, List.isPrefixOf_iff_prefix, decide_eq_true_iff]
    rfl
  rw [himplied, isReserved]
  cases hrename : m.signature.options.rename with
  | none => simp [Signature.isUnderscored_luaName_iff hrename]
  | some name =>
    rw [Signature.luaName, hrename, Option.getD_some]
    cases m.signature.options.constructor with
    | true => simp [isUnderscored_callMetamethod]
    | false => rfl

/-- The methods of a block that its stub describes, in the order of their declarations. -/
def described (target : RuntimeTarget) (impl : ImplBlock) : List PreparedMethod :=
  (impl.methods.filterMap (Interface.registered? target)).filter fun m => !isReserved m

theorem filter_isImplied_of_read {g : Generator} {source : String} {interfaces : List Interface}
    {i : Interface} (h : g.read source = .ok interfaces) (hi : i ∈ interfaces) :
    (i.methods.filter fun m => !isImplied m) = described g.target i.impl := by
  obtain ⟨impls, -, impl, -, himpl⟩ := Generator.exists_impl_of_read h hi
  have hgathers := (Interface.ofImpl_eq_ok_iff.1 himpl).2.2
  rw [described, hgathers.impl_eq, ← hgathers.methods_eq]
  simp only [isImplied_eq]

/-- A published name has no underscores, is its own published name, and is the name without its
underscores up to the case of letters. So what is not renamed is published under an underscored
name just if it is a constructor or a metamethod, and the stub of a source has, between its blank
lines, the lines of every class followed by those of each of its other methods, in the order of
their declarations. -/
theorem describes_unless_reserved :
    (∀ name : String, '_' ∉ (Text.camelCase name).toList ∧
      Text.camelCase (Text.camelCase name) = Text.camelCase name ∧
      (Text.camelCase name).toList.map Char.toLower =
        (name.toList.filter (· ≠ '_')).map Char.toLower) ∧
    (∀ s : Signature, s.options.rename = none →
      (IsUnderscored s.luaName ↔ s.options.constructor = true ∨ s.isMeta = true)) ∧
    ∀ (g : Generator) (source : String) (interfaces : List Interface),
      g.read source = .ok interfaces →
        ImplBlock.ofSource source ImplBlock.defaultMarker = .ok (interfaces.map Interface.impl) ∧
        ∀ a moduleName, (lines a moduleName interfaces).splitOn "" =
          headLines moduleName :: ((interfaces.flatMap fun i => classLines a i ::
            (described g.target i.impl).map (functionLines a i.className)) ++ [[]]) := by
  refine ⟨?_, ?_, ?_⟩
  · intro name
    exact ⟨Text.underscore_notMem_camelCase name, Text.camelCase_camelCase name,
      Text.toLower_camelCase name⟩
  · intro s h
    exact Signature.isUnderscored_luaName_iff h
  · intro g source interfaces hread
    constructor
    · obtain ⟨impls, hsource, hinterfaces⟩ := exists_of_bind_eq_ok hread
      rw [Generator.impls_of_interfaces hinterfaces]
      exact Fault.ofExcept_eq_ok_iff.1 hsource
    · intro a moduleName
      have hblocks : ∀ i ∈ interfaces, blocks a i = classLines a i ::
          (described g.target i.impl).map (functionLines a i.className) := by
        intro i hi
        rw [blocks, filter_isImplied_of_read hread hi]
      rw [splitOn_lines, List.flatMap_def, List.map_congr_left hblocks, ← List.flatMap_def]

/-- A constructor and a metamethod stand between two methods that are described. -/
theorem describes_unless_reserved_mixed :
    let g := Generator.fresh .default []
    let source := "#[lua_methods]\nimpl T \x7b\n    fn to_xyz(&self) \x7b\x7d\n" ++
      "    #[lua(constructor)]\n    fn make() \x7b\x7d\n    fn __len(&self) \x7b\x7d\n" ++
      "    fn set__x(x: u8) \x7b\x7d\n\x7d\n"
    ∃ interfaces, g.read source = .ok interfaces ∧
      (∀ i ∈ interfaces, ∀ m ∈ i.methods, m.signature.options.rename = none ∧
        (IsUnderscored m.signature.luaName ↔
          m.signature.options.constructor = true ∨ m.signature.isMeta = true)) ∧
      (lines g.annotator "m" interfaces).splitOn "" =
        [headLines "m", ["---@class T", "---@overload fun(): nil", "T = \x7b\x7d"],
          ["function T:toXYZ() end"], ["---@param x integer", "function T:setX(x) end"], []] := by
  intro g source
  have hread : (g.read source).toOption.map (fun interfaces =>
      (interfaces.all fun i => i.methods.all fun m => m.signature.options.rename.isNone,
        interfaces.flatMap fun i => classLines g.annotator i ::
          (described g.target i.impl).map (functionLines g.annotator i.className))) =
      some (true, [["---@class T", "---@overload fun(): nil", "T = \x7b\x7d"],
        ["function T:toXYZ() end"], ["---@param x integer", "function T:setX(x) end"]]) := by
    decide +kernel
  obtain ⟨interfaces, hinterfaces, hvalues⟩ := Option.map_eq_some_iff.1 hread
  obtain ⟨hnames, hblocks⟩ := Prod.mk.inj hvalues
  have hok := eq_ok_of_toOption hinterfaces
  obtain ⟨-, hunderscored, hdescribes⟩ := describes_unless_reserved
  refine ⟨interfaces, hok, ?_, ?_⟩
  · intro i hi m hm
    have hall := List.all_eq_true.1 hnames i hi
    have hnone := Option.isNone_iff_eq_none.1 (List.all_eq_true.1 hall m hm)
    exact ⟨hnone, hunderscored m.signature hnone⟩
  · rw [(hdescribes g source interfaces hok).2, hblocks]
    rfl

end Stub

end LuaBindings
