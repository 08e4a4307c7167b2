import LuaBindings.Interface.Emission
import LuaBindings.Proofs.CodeWriter
import LuaBindings.Proofs.Cursor

/-!
# The lines of an expansion

An expansion is told line by line: one impl registers every method with the closure that is called
on a receiver, and a second one publishes the others with the closure that is called on the table
(`Interface.expansion_eq_lines`).
-/

set_option autoImplicit false

namespace LuaBindings.Interface

open CodeWriter (blockLines)

def attributeLines (i : Interface) : List String :=
  i.impl.attributes.map fun a => Layout.inline a.trees

theorem appends_attributes (i : Interface) :
    CodeWriter.Appends (writeAttributes i) i.attributeLines :=
  CodeWriter.appends_lines i.attributeLines

def callLines (before : String) (closure : Closure) (after : String) : List String :=
  blockLines (before ++ closure.header) ("\x7d" ++ after) closure.statements

theorem appends_call (before : String) (closure : Closure) (after : String) :
    CodeWriter.Appends (writeCall before closure after) (callLines before closure after) :=
  CodeWriter.appends_block (CodeWriter.appends_lines closure.statements) _ _

/-! ### Registrations -/

def registrationFront (m : PreparedMethod) : String :=
  "__lua_methods." ++ (m.signature.registerWith ++ ("(" ++
    (Literal.quote m.signature.luaName ++ ", ")))

def registrationLines (m : PreparedMethod) : List String :=
  callLines (registrationFront m) (m.closure .receiver) ");"

theorem appends_registration (m : PreparedMethod) :
    CodeWriter.Appends (writeRegistration · m) (registrationLines m) := by
  have hfront : s!"{registry}.{m.signature.registerWith}({Literal.quote m.signature.luaName}, " =
      registrationFront m := by
    rw [← String.toList_inj]
    simp [toString, registry, registrationFront]
  unfold writeRegistration
  dsimp only
  rw [hfront]
  exact appends_call _ _ _

def userdataHeader (i : Interface) : String :=
  s!"impl{i.generics} {i.target.crate}::UserData for {i.selfType}{i.whereClause} \x7b"

def addMethodsHeader (i : Interface) : String :=
  s!"fn add_methods<'lua, M: {i.target.crate}::UserDataMethods<'lua, Self>>({registry}: &mut M) \x7b"

/-- The impl that registers all methods, behind its attributes. -/
def userdataBlock (i : Interface) : List String :=
  blockLines i.userdataHeader "\x7d"
    (blockLines i.addMethodsHeader "\x7d" (i.methods.flatMap registrationLines))

theorem userdataImpl_eq_lines (i : Interface) :
    i.userdataImpl = String.intercalate "\n" (i.attributeLines ++ i.userdataBlock) := by
  have hmethods := CodeWriter.appends_foldl appends_registration i.methods
  have hinner := CodeWriter.appends_block hmethods i.addMethodsHeader "\x7d"
  have hblock := CodeWriter.appends_block hinner i.userdataHeader "\x7d"
  exact (i.appends_attributes.comp hblock).output_eq

/-! ### Publications -/

def publicationFront (m : PreparedMethod) : String :=
  "__t_table.set(" ++ (Literal.quote m.signature.luaName ++ (", __lua_context." ++
    (creator m ++ "(")))

def publicationLines (m : PreparedMethod) : List String :=
  callLines (publicationFront m) (m.closure .table) ")?)?;"

theorem appends_publication (m : PreparedMethod) :
    CodeWriter.Appends (writePublication · m) (publicationLines m) := by
  have hfront : s!"{table}.set({Literal.quote m.signature.luaName}, {context}.{creator m}(" =
      publicationFront m := by
    rw [← String.toList_inj]
    simp [toString, table, context, publicationFront]
  unfold writePublication
  dsimp only
  rw [hfront]
  exact appends_call _ _ _

def globalLine (name : String) : String :=
  "__lua_context.globals().set(" ++ (Literal.quote name ++ ", __t_table)")

def publicationHeader (i : Interface) : String :=
  s!"impl{i.generics} {i.selfType}{i.whereClause} \x7b"

def registerGlobalsHeader (i : Interface) : String :=
  s!"fn register_globals<'lua>({context}: &'lua {i.target.luaType}) -> " ++
    s!"Result<(), {i.target.errorType}> \x7b"

def tableLine : String := s!"let {table} = {context}.create_table()?;"

def metatableLine : String := s!"{table}.set_metatable(Some({table}.clone()));"

/-- The impl that publishes the methods without a receiver, behind its attributes. -/
def publicationBlock (i : Interface) (name : String) : List String :=
  blockLines i.publicationHeader "\x7d"
    (blockLines i.registerGlobalsHeader "\x7d"
      (tableLine :: i.statics.flatMap publicationLines ++ [metatableLine, globalLine name]))

theorem appends_publications (i : Interface) (name : String) :
    CodeWriter.Appends
      (fun w => ((i.statics.foldl writePublication (w.line tableLine)).line metatableLine).line
        (globalLine name))
      (tableLine :: i.statics.flatMap publicationLines ++ [metatableLine, globalLine name]) := by
  have hstatics := (CodeWriter.appends_line tableLine).comp
    (CodeWriter.appends_foldl appends_publication i.statics)
  have hall := (hstatics.comp (CodeWriter.appends_line metatableLine)).comp
    (CodeWriter.appends_line (globalLine name))
  rw [List.append_assoc] at hall
  exact hall

theorem publishImpl_eq_lines (i : Interface) (name : String) :
    i.publishImpl name = String.intercalate "\n" (i.attributeLines ++ i.publicationBlock name) := by
  have hglobal : s!"{context}.globals().set({Literal.quote name}, {table})" = globalLine name := by
    rw [← String.toList_inj]
    unfold globalLine
    simp [toString, context, table]
  have hinner := CodeWriter.appends_block (i.appends_publications name) i.registerGlobalsHeader
    "\x7d"
  have hblock := CodeWriter.appends_block hinner i.publicationHeader "\x7d"
  unfold publishImpl
  dsimp only
  rw [hglobal]
  exact (i.appends_attributes.comp hblock).output_eq

/-! ### Expansions -/

/-- All lines of an expansion that publishes under the given name. -/
def expansionLines (i : Interface) (name : String) : List String :=
  i.attributeLines ++ i.userdataBlock ++
    if i.statics = [] then [] else "" :: (i.attributeLines ++ i.publicationBlock name)

theorem blockLines_ne_nil (header footer : String) (texts : List String) :
    blockLines header footer texts ≠ [] := by
  rintro ⟨⟩

theorem expansion_eq_lines {i : Interface} {expansion : String} (h : i.expansion = .ok expansion) :
    ∃ name, (i.statics ≠ [] → i.luaName? = some name) ∧
      expansion = String.intercalate "\n" (i.expansionLines name) := by
  obtain ⟨publication, hpublication, htext⟩ := exists_of_bind_eq_ok h
  have huserdata : i.attributeLines ++ i.userdataBlock ≠ [] :=
    List.append_ne_nil_of_right_ne_nil _ (blockLines_ne_nil _ _ _)
  unfold publication? at hpublication
  split at hpublication
  · rename_i hempty
    have hnone : i.statics = [] := List.isEmpty_iff.1 hempty
    cases hpublication
    cases htext
    refine ⟨"", fun hne => absurd hnone hne, ?_⟩
    rw [expansionLines, if_pos hnone, List.append_nil, userdataImpl_eq_lines]
  · rename_i hempty
    have hsome : i.statics ≠ [] := fun hnil => hempty (List.isEmpty_iff.2 hnil)
    split at hpublication
    · rename_i name hname
      cases hpublication
      cases htext
      have hpublish : i.attributeLines ++ i.publicationBlock name ≠ [] :=
        List.append_ne_nil_of_right_ne_nil _ (blockLines_ne_nil _ _ _)
      refine ⟨name, fun _ => hname, ?_⟩
      rw [expansionLines, if_neg hsome, String.intercalate_append_of_ne_nil huserdata (by simp),
        String.intercalate_cons_of_ne_nil hpublish, userdataImpl_eq_lines, publishImpl_eq_lines]
      simp only [String.append_assoc, String.empty_append]
      rfl
    · cases hpublication

end LuaBindings.Interface
