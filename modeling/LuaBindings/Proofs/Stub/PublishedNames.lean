import LuaBindings.Generator
import LuaBindings.Proofs.Cursor
import LuaBindings.Proofs.Interface.PublishedKeys
import LuaBindings.Proofs.Stub.FunctionStub
import LuaBindings.Proofs.Stub.LuaText

/-!
# Published names in a stub

A stub assigns and extends tables as Lua reads it, and an expansion publishes the literals in its
lines. The one names what the other publishes just where the table's name is a name in Lua, and
the name of a function is one too or, in brackets, has no character that a literal would escape
(`denotes_published_iff`).
-/

set_option autoImplicit false

namespace LuaBindings.Stub

open Text (skip? skip?_append skip?_cons skip?_eq_some)

namespace Lua

/-! ### Statements -/

def assigned? (line : List Char) : Option (List Char) := do
  let (table, rest) ← name? line
  if rest = " = \x7b\x7d".toList then some table else none

/-- What a function statement sets, and the text behind the key. -/
structure Target where
  table : List Char
  key : List UInt8
  rest : List Char
  deriving DecidableEq, Repr

def member? (text : List Char) : Option (List Char × List Char) := do
  let text ← (skip? ['.'] text).or (skip? [':'] text)
  name? text

def index? (text : List Char) : Option (List UInt8 × List Char) := do
  let text ← skip? ['[', '"'] text
  let (key, rest) ← throughQuote text
  return (key, ← skip? [']'] rest)

/-- What a line sets that is a function statement or assigns to a key. -/
def target? (line : List Char) : Option Target :=
  if (Terminal.run Terminal.isNameChar line).1 = "function".toList then do
    let line ← skip? "function ".toList line
    let (table, rest) ← name? line
    let (key, rest) ← member? rest
    return ⟨table, bytes key, rest⟩
  else do
    let (table, rest) ← name? line
    let (key, rest) ← index? rest
    return ⟨table, key, rest⟩

theorem isName_of_assigned? {line table : List Char} (h : assigned? line = some table) :
    isName table = true := by
  obtain ⟨⟨table', rest⟩, hname, h⟩ := Option.bind_eq_some_iff.1 h
  dsimp only at h
  split at h
  · cases h
    exact (name?_eq_some hname).1
  · cases h

theorem assigned?_append {name : List Char} (h : isName name = true) :
    assigned? (name ++ " = \x7b\x7d".toList) = some name := by
  have hstop : ∀ c ∈ (" = \x7b\x7d".toList).head?, Terminal.isNameChar c = false := by
    rintro c hc
    cases hc
    rfl
  change (name? _).bind _ = _
  rw [(name?_append_iff hstop).2 h]
  rfl

theorem member?_eq_some {text key rest : List Char} (h : member? text = some (key, rest)) :
    isName key = true ∧ ∃ separator, text = separator :: (key ++ rest) := by
  obtain ⟨behind, hskip, hname⟩ := Option.bind_eq_some_iff.1 h
  obtain ⟨hisName, rfl⟩ := name?_eq_some hname
  refine ⟨hisName, ?_⟩
  rcases Option.or_eq_some_iff.1 hskip with hskip | ⟨-, hskip⟩
  · exact ⟨'.', skip?_eq_some hskip⟩
  · exact ⟨':', skip?_eq_some hskip⟩

theorem member?_append {separator : Char} (hseparator : separator = '.' ∨ separator = ':')
    {key rest : List Char} (hkey : isName key = true)
    (hrest : ∀ c ∈ rest.head?, Terminal.isNameChar c = false) :
    member? (separator :: (key ++ rest)) = some (key, rest) := by
  have hskip : (skip? ['.'] (separator :: (key ++ rest))).or
      (skip? [':'] (separator :: (key ++ rest))) = some (key ++ rest) := by
    rcases hseparator with rfl | rfl
    · rw [skip?_cons, Option.some_or]
    · rw [skip?_cons ':']
      rfl
  rw [member?, hskip]
  exact (name?_append_iff hrest).2 hkey

theorem index?_eq_some {text rest : List Char} {key : List UInt8}
    (h : index? text = some (key, rest)) :
    ∃ inner, text = '[' :: '"' :: inner ∧ throughQuote inner = some (key, ']' :: rest) := by
  obtain ⟨inner, hopen, h⟩ := Option.bind_eq_some_iff.1 h
  obtain ⟨⟨value, behind⟩, hquote, h⟩ := Option.bind_eq_some_iff.1 h
  obtain ⟨rest', hclose, h⟩ := Option.bind_eq_some_iff.1 h
  cases h
  rw [skip?_eq_some hclose] at hquote
  exact ⟨inner, skip?_eq_some hopen, hquote⟩

theorem index?_iff (key rest : List Char) :
    index? ('[' :: '"' :: (key ++ '"' :: ']' :: rest)) = some (bytes key, rest) ↔
      key.all standsForItself = true := by
  constructor
  · intro h
    obtain ⟨inner, htext, hquote⟩ := index?_eq_some h
    cases htext
    exact (throughQuote_iff key (']' :: rest)).1 hquote
  · intro h
    have hopen : skip? ['[', '"'] ('[' :: '"' :: (key ++ '"' :: ']' :: rest)) =
        some (key ++ '"' :: ']' :: rest) := skip?_append ['[', '"'] _
    rw [index?, hopen, Option.bind_eq_bind, Option.bind_some, throughQuote_append h,
      Option.bind_eq_bind, Option.bind_some]
    dsimp only
    rw [skip?_cons]
    rfl

theorem run_function (rest : List Char) :
    (Terminal.run Terminal.isNameChar ("function ".toList ++ rest)).1 = "function".toList := by
  rfl

/-- A function statement behind a dot or a colon sets what it names if both are names. -/
theorem target?_member_iff {separator : Char} (hseparator : separator = '.' ∨ separator = ':')
    (table key rest : List Char) (hrest : ∀ c ∈ rest.head?, Terminal.isNameChar c = false) :
    target? ("function ".toList ++ (table ++ separator :: (key ++ rest))) =
        some ⟨table, bytes key, rest⟩ ↔
      isName table = true ∧ isName key = true := by
  rw [target?, if_pos (run_function _), skip?_append, Option.bind_eq_bind, Option.bind_some]
  constructor
  · intro h
    obtain ⟨⟨table', behind⟩, hname, h⟩ := Option.bind_eq_some_iff.1 h
    obtain ⟨⟨key', rest'⟩, hmember, h⟩ := Option.bind_eq_some_iff.1 h
    obtain ⟨hisTable, htext⟩ := name?_eq_some hname
    obtain ⟨hisKey, separator', hbehind⟩ := member?_eq_some hmember
    simp only [Option.pure_def, Option.some.injEq, Target.mk.injEq] at h
    obtain ⟨rfl, -, rfl⟩ := h
    subst hbehind
    obtain ⟨-, hkey⟩ := List.cons_eq_cons.1 (List.append_cancel_left htext)
    rw [List.append_cancel_right hkey]
    exact ⟨hisTable, hisKey⟩
  · rintro ⟨hisTable, hisKey⟩
    have hstop : ∀ c ∈ (separator :: (key ++ rest)).head?, Terminal.isNameChar c = false := by
      rintro c hc
      cases hc
      rcases hseparator with rfl | rfl <;> rfl
    change (name? _).bind _ = _
    rw [(name?_append_iff hstop).2 hisTable, Option.bind_some]
    change (member? _).bind _ = _
    rw [member?_append hseparator hisKey hrest]
    rfl

/-- A function that is assigned to a literal in brackets is set under it if nothing in it would
have to be escaped. -/
theorem target?_index_iff (table key rest : List Char) :
    target? (table ++ '[' :: '"' :: (key ++ '"' :: ']' :: rest)) =
        some ⟨table, bytes key, rest⟩ ↔
      isName table = true ∧ key.all standsForItself = true := by
  have hstop : ∀ c ∈ ('[' :: '"' :: (key ++ '"' :: ']' :: rest)).head?,
      Terminal.isNameChar c = false := by
    rintro c hc
    cases hc
    rfl
  have hword (h : isName table = true) : (Terminal.run Terminal.isNameChar
      (table ++ '[' :: '"' :: (key ++ '"' :: ']' :: rest))).1 ≠ "function".toList := by
    rw [run_name h hstop]
    rintro rfl
    cases h
  constructor
  · intro h
    rw [target?] at h
    split at h
    · rename_i hfunction
      obtain ⟨line, -, h⟩ := Option.bind_eq_some_iff.1 h
      obtain ⟨⟨table', behind⟩, hname, h⟩ := Option.bind_eq_some_iff.1 h
      obtain ⟨⟨key', rest'⟩, -, h⟩ := Option.bind_eq_some_iff.1 h
      simp only [Option.pure_def, Option.some.injEq, Target.mk.injEq] at h
      obtain ⟨rfl, -, -⟩ := h
      exact absurd hfunction (hword (name?_eq_some hname).1)
    · obtain ⟨⟨table', behind⟩, hname, h⟩ := Option.bind_eq_some_iff.1 h
      obtain ⟨⟨key', rest'⟩, hindex, h⟩ := Option.bind_eq_some_iff.1 h
      obtain ⟨hisTable, htext⟩ := name?_eq_some hname
      simp only [Option.pure_def, Option.some.injEq, Target.mk.injEq] at h
      obtain ⟨rfl, rfl, rfl⟩ := h
      rw [← List.append_cancel_left htext] at hindex
      exact ⟨hisTable, (index?_iff key _).1 hindex⟩
  · rintro ⟨hisTable, hkey⟩
    rw [target?, if_neg (hword hisTable)]
    change (name? _).bind _ = _
    rw [(name?_append_iff hstop).2 hisTable, Option.bind_some]
    change (index? _).bind _ = _
    rw [(index?_iff key rest).2 hkey]
    rfl

end Lua

namespace FunctionStub

def tail (f : FunctionStub) : List Char :=
  match f.form with
  | .bracket _ => s!" = function({commaText f.arguments}) end".toList
  | _ => s!"({commaText f.params}) end".toList

/-- The characters of a statement, with the key among them. -/
theorem toList_text (f : FunctionStub) :
    f.text.toList =
      match f.form with
      | .dot => "function ".toList ++ (f.table.toList ++ '.' :: (f.key.toList ++ f.tail))
      | .colon => "function ".toList ++ (f.table.toList ++ ':' :: (f.key.toList ++ f.tail))
      | .bracket _ => f.table.toList ++ '[' :: '"' :: (f.key.toList ++ '"' :: ']' :: f.tail) := by
  obtain ⟨table, key, form, params⟩ := f
  cases form <;> simp only [text, tail, String.toList_append, List.append_assoc] <;> rfl

def isPlain (f : FunctionStub) : Bool :=
  match f.form with
  | .bracket _ => f.key.toList.all Lua.standsForItself
  | _ => Lua.isName f.key.toList

/-- A statement sets its key in its table just if both stand for themselves. -/
theorem target?_text_iff (f : FunctionStub) :
    Lua.target? f.text.toList = some ⟨f.table.toList, Lua.bytes f.key.toList, f.tail⟩ ↔
      Lua.isName f.table.toList = true ∧ f.isPlain = true := by
  have hstop (h : f.form = .dot ∨ f.form = .colon) :
      ∀ c ∈ f.tail.head?, Terminal.isNameChar c = false := by
    have htail : f.tail = '(' :: s!"{commaText f.params}) end".toList := by
      rw [tail]
      rcases h with h | h <;> rw [h] <;> simp only [String.toList_append, List.append_assoc] <;> rfl
    rw [htail]
    rintro c hc
    cases hc
    rfl
  rw [toList_text]
  cases hform : f.form with
  | dot =>
    rw [isPlain, hform]
    exact Lua.target?_member_iff (.inl rfl) _ _ _ (hstop (.inl hform))
  | colon =>
    rw [isPlain, hform]
    exact Lua.target?_member_iff (.inr rfl) _ _ _ (hstop (.inr hform))
  | bracket withSelf =>
    rw [isPlain, hform]
    exact Lua.target?_index_iff _ _ _

end FunctionStub

theorem className_of_isName {i : Interface} {name : String} (h : i.luaName? = some name)
    (hname : Lua.isName name.toList = true) : i.className = name := by
  have hne : name.isEmpty = false := by
    cases hempty : name.isEmpty with
    | false => rfl
    | true =>
      rw [String.isEmpty_iff.1 hempty] at hname
      cases hname
  rw [Interface.className, h]
  dsimp only
  rw [hne]
  rfl

/-! ### Lines of a stub -/

def isComment (line : String) : Bool := ['-', '-'].isPrefixOf line.toList

theorem isComment_append {front : String} (h : isComment front = true) (rest : String) :
    isComment (front ++ rest) = true := by
  obtain ⟨more, hmore⟩ := List.isPrefixOf_iff_prefix.1 h
  rw [isComment, String.toList_append, ← hmore, List.append_assoc]
  exact List.isPrefixOf_iff_prefix.2 (List.prefix_append _ _)

def annotationLines (a : Annotator) (className : String) (m : PreparedMethod) : List String :=
  (parameters a className m).map parameterLine ++ (returns a className m).map ("---@return " ++ ·)

theorem isComment_annotationLines {a : Annotator} {className : String} {m : PreparedMethod} :
    ∀ line ∈ annotationLines a className m, isComment line = true := by
  intro line hline
  rcases List.mem_append.1 hline with hline | hline
  · obtain ⟨p, -, rfl⟩ := List.mem_map.1 hline
    unfold parameterLine
    split <;> iterate 3 refine isComment_append ?_ _
    · decide
    · decide
  · obtain ⟨luaType, -, rfl⟩ := List.mem_map.1 hline
    exact isComment_append (by decide) _

theorem isComment_overloadLine (a : Annotator) (className : String) (m : PreparedMethod) :
    isComment (overloadLine a className m) = true := by
  unfold overloadLine
  iterate 3 refine isComment_append ?_ _
  decide

/-- A function statement sets the published key in the table of its class. -/
def SetsKey (className : String) (m : PreparedMethod) (statement : String) : Prop :=
  Lua.target? statement.toList = some
    ⟨className.toList, Lua.bytes m.signature.luaName.toList, (functionStub className m).tail⟩

theorem setsKey_iff (className : String) (m : PreparedMethod) :
    SetsKey className m (functionStub className m).text ↔
      Lua.isName className.toList = true ∧
        if isPlainName m.signature.luaName then Lua.isName m.signature.luaName.toList = true
        else m.signature.luaName.toList.all Lua.standsForItself = true := by
  refine (FunctionStub.target?_text_iff (functionStub className m)).trans (and_congr_right ?_)
  intro _
  unfold FunctionStub.isPlain functionStub FunctionStub.ofMethod FunctionStub.keyForm
  cases isPlainName m.signature.luaName with
  | false => rfl
  | true =>
    dsimp only
    cases FunctionStub.isColonCall m _ <;> rfl

/-- The lines of a stub are comments, the assignment of the table, and the functions. -/
theorem interfaceLines_eq (a : Annotator) (i : Interface) :
    interfaceLines a i =
      (s!"---@class {i.className}" :: (i.methods.filter isConstructor).map
        (overloadLine a i.className)) ++ (i.className ++ " = \x7b\x7d") ::
          ((i.methods.filter fun m => !isImplied m).map fun m =>
            "" :: (annotationLines a i.className m ++ [(functionStub i.className m).text])).flatten := by
  have hfunction (m : PreparedMethod) : "" :: functionLines a i.className m =
      "" :: (annotationLines a i.className m ++ [(functionStub i.className m).text]) := by
    have hparams : (parameters a i.className m).map TypedName.name =
        m.signature.args.map fun arg => parameterName arg.name := by
      rw [parameters, List.map_map]
      rfl
    rw [functionStub, ← FunctionStub.functionLine_eq, ← hparams]
    rfl
  have hassigned : s!"{i.className} = \x7b\x7d" = i.className ++ " = \x7b\x7d" := rfl
  unfold interfaceLines
  dsimp only
  simp only [hfunction, hassigned, List.flatMap_def]
  simp

/-- What an expansion publishes is read off its lines: the keys of all registrations, the keys that
are set in the table and the name that makes the table global. The stub names it, as Lua reads the
stub, just where names stand for themselves: the table it assigns is the published one if that is
called by a name, and a function is set under its published name in the table of the class if the
name is written as what it is. -/
theorem denotes_published_iff (a : Annotator) {i : Interface} {expansion : String}
    (hexpansion : i.expansion = .ok expansion) :
    ∃ name, expansion = String.intercalate "\n" (i.expansionLines name) ∧
      i.userdataBlock.filterMap Interface.registeredKey? = i.methods.map (·.signature.luaName) ∧
      (i.publicationBlock name).filterMap Interface.publishedKey? =
        i.statics.map (·.signature.luaName) ∧
      (i.publicationBlock name).filterMap Interface.publishedTable? = [name] ∧
      ∃ (comments : List String) (assigned : String) (functions : List (List String)),
        interfaceLines a i = comments ++ assigned :: functions.flatten ∧
        (∀ line ∈ comments, isComment line = true) ∧
        (i.statics ≠ [] →
          (Lua.assigned? assigned.toList = some name.toList ↔ Lua.isName name.toList = true) ∧
          (Lua.isName name.toList = true → i.className = name)) ∧
        List.Forall₂ (fun m lines => ∃ annotations statement,
            lines = "" :: (annotations ++ [statement]) ∧
            (∀ line ∈ annotations, isComment line = true) ∧
            (SetsKey i.className m statement ↔ Lua.isName i.className.toList = true ∧
              if isPlainName m.signature.luaName then
                Lua.isName m.signature.luaName.toList = true
              else m.signature.luaName.toList.all Lua.standsForItself = true))
          (i.methods.filter fun m => !isImplied m) functions := by
  obtain ⟨name, hname, hlines⟩ := Interface.expansion_eq_lines hexpansion
  refine ⟨name, hlines, i.filterMap_registeredKey?, i.filterMap_publishedKey? name,
    i.filterMap_publishedTable? name, _, _, _, interfaceLines_eq a i, ?_, fun hstatics => ?_, ?_⟩
  · have hclass : isComment s!"---@class {i.className}" = true :=
      isComment_append (by decide) _
    refine List.forall_mem_cons.2 ⟨hclass, List.forall_mem_map.2 fun m _ => ?_⟩
    exact isComment_overloadLine a i.className m
  · have hclass (h : Lua.isName name.toList = true) : i.className = name :=
      className_of_isName (hname hstatics) h
    refine ⟨⟨Lua.isName_of_assigned?, fun h => ?_⟩, hclass⟩
    rw [hclass h, String.toList_append]
    exact Lua.assigned?_append h
  · rw [List.forall₂_map_right_iff, List.forall₂_same]
    exact fun m _ => ⟨_, _, rfl, isComment_annotationLines, setsKey_iff i.className m⟩

/-- A class with a function of its own and one on its values, under names of their own. -/
theorem denotes_published_static :
    ∃ (i : Interface) (expansion name : String), i.expansion = .ok expansion ∧ i.statics ≠ [] ∧
      expansion = String.intercalate "\n" (i.expansionLines name) ∧
      (i.publicationBlock name).filterMap Interface.publishedTable? = [name] ∧
      ∃ (comments : List String) (assigned : String) (functions : List (List String)),
        interfaceLines ⟨[], []⟩ i = comments ++ assigned :: functions.flatten ∧
        (Lua.assigned? assigned.toList = some name.toList ↔ Lua.isName name.toList = true) := by
  have hread : (((Generator.fresh .default []).read
      ("#[lua_methods(lua_name = \"Point\")]\nimpl T \x7b\n    #[lua(rename = \"a\\\"b\")]\n" ++
        "    fn f(&self) \x7b\x7d\n    fn g() \x7b\x7d\n\x7d\n")).toOption.any fun interfaces =>
        interfaces.head?.any fun i => !i.statics.isEmpty && i.expansion.toOption.isSome) = true := by
    decide +kernel
  obtain ⟨interfaces, -, hread⟩ := (Option.any_eq_true _ _).1 hread
  obtain ⟨i, -, hi⟩ := (Option.any_eq_true _ _).1 hread
  rw [Bool.and_eq_true, Option.isSome_iff_exists] at hi
  obtain ⟨hstatics, expansion, hexpansion⟩ := hi
  have hne : i.statics ≠ [] := by simpa using hstatics
  have hexpansion := eq_ok_of_toOption hexpansion
  obtain ⟨name, hlines, -, -, htable, comments, assigned, functions, hstub, -, hassigned, -⟩ :=
    denotes_published_iff ⟨[], []⟩ hexpansion
  exact ⟨i, expansion, name, hexpansion, hne, hlines, htable, comments, assigned, functions, hstub,
    (hassigned hne).1⟩

/-- The published name and the function statement of a source's first method, if the first
interface is written. -/
def firstFunction? (source : String) : Option (String × String) := do
  let interfaces ← ((Generator.fresh .default []).read source).toOption
  let i ← interfaces.head?
  let _ ← i.expansion.toOption
  let m ← i.methods.head?
  return (m.signature.luaName,
    functionLine i.className m (m.signature.args.map fun arg => parameterName arg.name))

/-- A quote in a name ends the literal, and a letter beyond ASCII is no part of a name. -/
theorem key_is_misread :
    (firstFunction? ("#[lua_methods]\nimpl T \x7b\n    #[lua(rename = \"a\\\"b\")]\n" ++
        "    fn f(&self) \x7b\x7d\n\x7d\n") = some ("a\"b", "T[\"a\"b\"] = function(self) end") ∧
      Lua.target? "T[\"a\"b\"] = function(self) end".toList = none) ∧
    (firstFunction? ("#[lua_methods]\nimpl T \x7b\n    #[lua(rename = \"é\")]\n" ++
        "    fn f(&self) \x7b\x7d\n\x7d\n") = some ("é", "function T:é() end") ∧
      Lua.target? "function T:é() end".toList = none) := by
  refine ⟨⟨?_, ?_⟩, ?_, ?_⟩ <;> decide +kernel

end LuaBindings.Stub
