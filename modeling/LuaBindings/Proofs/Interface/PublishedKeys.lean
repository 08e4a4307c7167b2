import LuaBindings.Proofs.Interface.EmittedLines
import LuaBindings.Proofs.Literal.Rereading
import LuaBindings.Proofs.Token.Writing

/-!
# Reading what an expansion publishes

The keys that an expansion registers and publishes are read off its lines: a line that begins a
call at the depth of the methods has a literal behind its front, and the key is the value of that
literal (`Interface.filterMap_registeredKey?`, `Interface.filterMap_publishedKey?`,
`Interface.filterMap_publishedTable?`).
-/

set_option autoImplicit false

namespace LuaBindings

namespace Text

def skip? (front text : List Char) : Option (List Char) :=
  if front.isPrefixOf text then some (text.drop front.length) else none

theorem skip?_append (front rest : List Char) : skip? front (front ++ rest) = some rest := by
  rw [skip?, if_pos (List.isPrefixOf_iff_prefix.2 (List.prefix_append front rest)),
    List.drop_left]

theorem skip?_cons (c : Char) (rest : List Char) : skip? [c] (c :: rest) = some rest :=
  skip?_append [c] rest

theorem skip?_eq_some {front text rest : List Char} (h : skip? front text = some rest) :
    text = front ++ rest := by
  rw [skip?] at h
  split at h
  · rename_i hfront
    obtain ⟨behind, rfl⟩ := List.isPrefixOf_iff_prefix.1 hfront
    rw [List.drop_left] at h
    cases h
    rfl
  · cases h

end Text

open Text (skip? skip?_append skip?_cons skip?_eq_some)

def Literal.value? (text : List Char) : Option String := do
  let (kind, literal, _) ← Terminal.next? text
  if kind = .string then decode (String.ofList literal) else none

theorem Literal.value?_quote (value : String) (rest : List Char) :
    value? ((quote value).toList ++ rest) = some value := by
  obtain ⟨hlexeme, hfirm⟩ := isLexeme_quote value
  have hnext : Terminal.next? ((quote value).toList ++ rest) =
      some (.string, (quote value).toList, rest) :=
    Terminal.next?_of_follows hlexeme fun _ => hfirm
  have hdecode : decode (quote value) = some value := by
    rw [quote_eq, decode_quoted, unescape_flatMap_quoteChar, Option.map_some,
      String.ofList_toList]
  rw [value?, hnext, Option.bind_eq_bind, Option.bind_some]
  dsimp only
  rw [if_pos rfl, String.ofList_toList, hdecode]

namespace Interface

open CodeWriter (blockLines indented)

/-! ### Lines that begin calls -/

def callStart : List Char := List.replicate 8 ' ' ++ ['_']

def isCall (line : String) : Bool := callStart.isPrefixOf line.toList

theorem toList_indented {text : String} (h : text ≠ "") (depth : Nat) :
    (indented depth text).toList = List.replicate (4 * depth) ' ' ++ text.toList := by
  rw [indented, if_neg (fun hempty => h (String.isEmpty_iff.1 hempty)), String.toList_append,
    CodeWriter.indentation, String.toList_ofList]

theorem isCall_indented_three (text : String) : isCall (indented 3 text) = false := by
  by_cases hempty : text = ""
  · subst hempty
    decide
  · rw [isCall, toList_indented hempty]
    rfl

theorem isCall_indented_two {c : Char} {rest : List Char} {text : String}
    (h : text.toList = c :: rest) : isCall (indented 2 text) = (c == '_') := by
  have hempty : text ≠ "" := by
    rintro rfl
    cases h
  rw [isCall, toList_indented hempty, h, Bool.beq_comm]
  change ('_' == c && true) = _
  rw [Bool.and_true]

/-- Only the lines in the inner of two blocks begin calls. -/
theorem filter_isCall_blocks {header inner : String} (hheader : isCall header = false)
    (hinner : isCall (indented 1 inner) = false) (texts : List String) :
    (blockLines header "\x7d" (blockLines inner "\x7d" texts)).filter isCall =
      (texts.map (indented 2)).filter isCall := by
  have hdeeper : (texts.map (indented 1)).map (indented 1) = texts.map (indented 2) := by
    rw [List.map_map]
    exact List.map_congr_left fun text _ => CodeWriter.indented_indented 1 1 text
  have hclose : isCall (indented 1 "\x7d") = false := by decide
  have hend : isCall "\x7d" = false := by decide
  simp only [blockLines, List.map_append, List.map_cons, List.map_nil, hdeeper,
    List.filter_append, List.filter_cons, hheader, hinner, hclose, hend]
  simp

/-- A call begins in its first line. -/
theorem filter_isCall_callLines {front after : String} (hfront : front.toList.head? = some '_')
    (closure : Closure) :
    ((callLines front closure after).map (indented 2)).filter isCall =
      [indented 2 (front ++ closure.header)] := by
  obtain ⟨rest, hrest⟩ := List.head?_eq_some_iff.1 hfront
  have htext : (front ++ closure.header).toList = '_' :: (rest ++ closure.header.toList) := by
    rw [String.toList_append, hrest]
    rfl
  have hclose : ("\x7d" ++ after).toList = '\x7d' :: after.toList := by
    rw [String.toList_append]
    rfl
  have hfirst : isCall (indented 2 (front ++ closure.header)) = true := by
    rw [isCall_indented_two htext]
    rfl
  have hlast : isCall (indented 2 ("\x7d" ++ after)) = false := by
    rw [isCall_indented_two hclose]
    rfl
  have hdeeper : (closure.statements.map (indented 1)).map (indented 2) =
      closure.statements.map (indented 3) := by
    rw [List.map_map]
    exact List.map_congr_left fun text _ => CodeWriter.indented_indented 2 1 text
  have hbody : (closure.statements.map (indented 3)).filter isCall = [] := by
    rw [List.filter_eq_nil_iff, List.forall_mem_map]
    intro text _
    rw [isCall_indented_three]
    decide
  simp only [callLines, blockLines, List.map_append, List.map_cons, List.map_nil, hdeeper,
    List.filter_append, List.filter_cons, hfirst, hlast, hbody]
  rfl

theorem filter_isCall_flatMap {front : PreparedMethod → String} {after : String}
    (hfront : ∀ m, (front m).toList.head? = some '_') (closure : PreparedMethod → Closure)
    (methods : List PreparedMethod) :
    ((methods.flatMap fun m => callLines (front m) (closure m) after).map (indented 2)).filter
        isCall = methods.map fun m => indented 2 (front m ++ (closure m).header) := by
  induction methods with
  | nil => rfl
  | cons m methods ih =>
    rw [List.flatMap_cons, List.map_append, List.filter_append, ih,
      filter_isCall_callLines (hfront m)]
    rfl

theorem head?_append {front : String} {c : Char} (h : front.toList.head? = some c)
    (rest : String) : (front ++ rest).toList.head? = some c := by
  rw [String.toList_append, List.head?_append, h]
  rfl

theorem head?_registrationFront (m : PreparedMethod) :
    (registrationFront m).toList.head? = some '_' :=
  head?_append (by decide) _

theorem head?_publicationFront (m : PreparedMethod) :
    (publicationFront m).toList.head? = some '_' :=
  head?_append (by decide) _

theorem isCall_of_head {c : Char} {text : String} (h : text.toList.head? = some c)
    (hc : c ≠ ' ') : isCall text = false ∧ isCall (indented 1 text) = false := by
  obtain ⟨rest, hrest⟩ := List.head?_eq_some_iff.1 h
  have hempty : text ≠ "" := by
    rintro rfl
    cases h
  constructor
  · rw [isCall, hrest]
    simp [callStart, List.replicate, List.isPrefixOf_cons_cons, hc.symm]
  · rw [isCall, toList_indented hempty, hrest]
    simp [callStart, List.replicate, List.isPrefixOf_cons_cons, hc.symm]

theorem head?_userdataHeader (i : Interface) : i.userdataHeader.toList.head? = some 'i' := by
  unfold userdataHeader
  iterate 7 refine head?_append ?_ _
  decide

theorem head?_addMethodsHeader (i : Interface) : i.addMethodsHeader.toList.head? = some 'f' := by
  unfold addMethodsHeader
  iterate 4 refine head?_append ?_ _
  decide

theorem head?_publicationHeader (i : Interface) :
    i.publicationHeader.toList.head? = some 'i' := by
  unfold publicationHeader
  iterate 5 refine head?_append ?_ _
  decide

theorem head?_registerGlobalsHeader (i : Interface) :
    i.registerGlobalsHeader.toList.head? = some 'f' := by
  unfold registerGlobalsHeader
  iterate 5 refine head?_append ?_ _
  decide

theorem filter_isCall_registrations (methods : List PreparedMethod) :
    ((methods.flatMap registrationLines).map (indented 2)).filter isCall =
      methods.map fun m => indented 2 (registrationFront m ++ (m.closure .receiver).header) :=
  filter_isCall_flatMap head?_registrationFront (·.closure .receiver) methods

theorem filter_isCall_publications (methods : List PreparedMethod) :
    ((methods.flatMap publicationLines).map (indented 2)).filter isCall =
      methods.map fun m => indented 2 (publicationFront m ++ (m.closure .table).header) :=
  filter_isCall_flatMap head?_publicationFront (·.closure .table) methods

/-- The calls in the impl that registers are the registrations. -/
theorem filter_isCall_userdataBlock (i : Interface) :
    i.userdataBlock.filter isCall =
      i.methods.map fun m => indented 2 (registrationFront m ++ (m.closure .receiver).header) := by
  rw [userdataBlock, filter_isCall_blocks (isCall_of_head i.head?_userdataHeader (by decide)).1
    (isCall_of_head i.head?_addMethodsHeader (by decide)).2, filter_isCall_registrations]

theorem isCall_globalLine (name : String) : isCall (indented 2 (globalLine name)) = true := by
  have hhead : (globalLine name).toList.head? = some '_' := head?_append (by decide) _
  obtain ⟨rest, hrest⟩ := List.head?_eq_some_iff.1 hhead
  rw [isCall_indented_two hrest]
  rfl

/-- The calls in the impl that publishes are the publications, and then the two that make the table
its own metatable and global. -/
theorem filter_isCall_publicationBlock (i : Interface) (name : String) :
    (i.publicationBlock name).filter isCall =
      (i.statics.map fun m => indented 2 (publicationFront m ++ (m.closure .table).header)) ++
        [indented 2 metatableLine, indented 2 (globalLine name)] := by
  have htable : isCall (indented 2 tableLine) = false := by decide
  have hmetatable : isCall (indented 2 metatableLine) = true := by decide
  rw [publicationBlock, filter_isCall_blocks
    (isCall_of_head i.head?_publicationHeader (by decide)).1
    (isCall_of_head i.head?_registerGlobalsHeader (by decide)).2, List.map_append, List.map_cons,
    List.filter_append, List.filter_cons_of_neg (by simp [htable]), filter_isCall_publications]
  simp [hmetatable, isCall_globalLine]

/-! ### Keys -/

def behind? (front line : String) : Option (List Char) :=
  skip? (List.replicate 8 ' ' ++ front.toList) line.toList

theorem behind?_append {front rest : String} (hfront : front ≠ "") :
    behind? front (indented 2 (front ++ rest)) = some rest.toList := by
  have hempty : front ++ rest ≠ "" := fun h => hfront (String.append_eq_empty_iff.1 h).1
  rw [behind?, toList_indented hempty, String.toList_append, ← List.append_assoc]
  exact skip?_append _ _

theorem behind?_of_not_isCall {front line : String} (hfront : front.toList.head? = some '_')
    (hline : isCall line = false) : behind? front line = none := by
  obtain ⟨more, hmore⟩ := List.head?_eq_some_iff.1 hfront
  have hstart : callStart ++ more = List.replicate 8 ' ' ++ front.toList := by
    rw [hmore, callStart, List.append_assoc]
    rfl
  rw [behind?, skip?, ← hstart, if_neg]
  intro hprefix
  obtain ⟨rest, hrest⟩ := List.isPrefixOf_iff_prefix.1 hprefix
  rw [isCall, ← hrest, List.append_assoc] at hline
  rw [List.isPrefixOf_iff_prefix.2 (List.prefix_append _ _)] at hline
  cases hline

/-- Another front is not taken. -/
theorem behind?_eq_none {front other rest : String} (hother : other ≠ "")
    (h : (front.toList.zip other.toList).any (fun pair => pair.1 != pair.2) = true) :
    behind? front (indented 2 (other ++ rest)) = none := by
  have hempty : other ++ rest ≠ "" := fun h => hother (String.append_eq_empty_iff.1 h).1
  rw [behind?, skip?, toList_indented hempty, String.toList_append, if_neg]
  intro hprefix
  obtain ⟨more, hmore⟩ :=
    (List.prefix_append_right_inj _).1 (List.isPrefixOf_iff_prefix.1 hprefix)
  obtain ⟨⟨c, d⟩, hmem, hne⟩ := List.any_eq_true.1 h
  obtain ⟨index, hindex⟩ := List.getElem?_of_mem hmem
  obtain ⟨hc, hd⟩ := List.getElem?_zip_eq_some.1 hindex
  have hkept : (front.toList ++ more)[index]? = some c := by
    rw [List.getElem?_append_left (List.getElem?_eq_some_iff.1 hc).1, hc]
  have hsame : some c = some d := by
    rw [← hkept, ← hd, hmore, List.getElem?_append_left (List.getElem?_eq_some_iff.1 hd).1]
  rw [Option.some.inj hsame] at hne
  exact absurd hne (by simp)

def registeredKey? (line : String) : Option String := do
  let text ← behind? "__lua_methods." line
  let text ← skip? ['('] (Terminal.run Terminal.isNameChar text).2
  Literal.value? text

def publishedKey? (line : String) : Option String :=
  (behind? "__t_table.set(" line).bind Literal.value?

def publishedTable? (line : String) : Option String :=
  (behind? "__lua_context.globals().set(" line).bind Literal.value?

theorem filterMap_filter_isCall {read : String → Option String}
    (hread : ∀ line, isCall line = false → read line = none) (lines : List String) :
    lines.filterMap read = (lines.filter isCall).filterMap read := by
  rw [List.filterMap_filter]
  refine List.filterMap_congr fun line _ => ?_
  cases hline : isCall line with
  | true => rfl
  | false => exact hread line hline

theorem isNameChar_registerWith (s : Signature) :
    ∀ c ∈ s.registerWith.toList, Terminal.isNameChar c = true := by
  rw [← List.all_eq_true]
  unfold Signature.registerWith
  generalize s.method.isAsync = isAsync
  generalize s.isMeta = isMeta
  cases s.dispatch with
  | receiver isMut => cases isAsync <;> cases isMeta <;> cases isMut <;> decide
  | free isMut => cases isAsync <;> cases isMeta <;> cases isMut <;> decide

theorem registeredKey?_registration (m : PreparedMethod) (more : String) :
    registeredKey? (indented 2 (registrationFront m ++ more)) = some m.signature.luaName := by
  have hstop : ∀ c ∈ ('(' :: ((Literal.quote m.signature.luaName).toList ++
      (", ".toList ++ more.toList))).head?, Terminal.isNameChar c = false := by
    rintro c ⟨⟩
    rfl
  have hrun := Terminal.run_eq_of_append (isNameChar_registerWith m.signature) hstop
  unfold registeredKey? registrationFront
  rw [String.append_assoc, behind?_append (by simp), Option.bind_eq_bind,
    Option.bind_some]
  simp only [String.toList_append, List.append_assoc]
  rw [show "(".toList = ['('] from rfl, List.singleton_append, hrun, skip?_cons, Option.bind_some,
    Literal.value?_quote]

theorem publishedKey?_publication (m : PreparedMethod) (more : String) :
    publishedKey? (indented 2 (publicationFront m ++ more)) = some m.signature.luaName := by
  rw [publishedKey?, publicationFront, String.append_assoc, behind?_append (by simp),
    Option.bind_some, String.append_assoc, String.toList_append, Literal.value?_quote]

theorem publishedKey?_of_not_isCall {line : String} (h : isCall line = false) :
    publishedKey? line = none := by
  rw [publishedKey?, behind?_of_not_isCall (by decide) h]
  rfl

theorem publishedKey?_metatable : publishedKey? (indented 2 metatableLine) = none := by
  decide

theorem publishedKey?_global (name : String) :
    publishedKey? (indented 2 (globalLine name)) = none := by
  unfold publishedKey? globalLine
  rw [behind?_eq_none (by simp) (by decide)]
  rfl

theorem publishedTable?_global (name : String) :
    publishedTable? (indented 2 (globalLine name)) = some name := by
  unfold publishedTable? globalLine
  rw [behind?_append (by simp), Option.bind_some, String.toList_append,
    Literal.value?_quote]

/-- Every method is registered under its name. -/
theorem filterMap_registeredKey? (i : Interface) :
    i.userdataBlock.filterMap registeredKey? = i.methods.map (·.signature.luaName) := by
  have hread (line : String) (hline : isCall line = false) : registeredKey? line = none := by
    rw [registeredKey?, behind?_of_not_isCall (by decide) hline]
    rfl
  rw [filterMap_filter_isCall hread, filter_isCall_userdataBlock, List.filterMap_map,
    ← List.filterMap_eq_map]
  refine List.filterMap_congr fun m _ => ?_
  rw [Function.comp_apply, Function.comp_apply, registeredKey?_registration]

/-- Every method without a receiver is published under its name. -/
theorem filterMap_publishedKey? (i : Interface) (name : String) :
    (i.publicationBlock name).filterMap publishedKey? =
      i.statics.map (·.signature.luaName) := by
  rw [filterMap_filter_isCall fun _ => publishedKey?_of_not_isCall, filter_isCall_publicationBlock,
    List.filterMap_append, List.filterMap_map, List.filterMap_cons_none publishedKey?_metatable,
    List.filterMap_cons_none (publishedKey?_global name), List.filterMap_nil, List.append_nil,
    ← List.filterMap_eq_map]
  refine List.filterMap_congr fun m _ => ?_
  rw [Function.comp_apply, Function.comp_apply, publishedKey?_publication]

/-- The table is made global under the given name. -/
theorem filterMap_publishedTable? (i : Interface) (name : String) :
    (i.publicationBlock name).filterMap publishedTable? = [name] := by
  have hread (line : String) (hline : isCall line = false) : publishedTable? line = none := by
    unfold publishedTable?
    rw [behind?_of_not_isCall (by decide) hline]
    rfl
  have hstatics : (i.statics.map fun m =>
      indented 2 (publicationFront m ++ (m.closure .table).header)).filterMap publishedTable? =
        [] := by
    rw [List.filterMap_map, List.filterMap_eq_nil_iff]
    intro m _
    rw [Function.comp_apply]
    unfold publishedTable? publicationFront
    rw [String.append_assoc, behind?_eq_none (by simp) (by decide)]
    rfl
  have hmetatable : publishedTable? (indented 2 metatableLine) = none := by decide
  rw [filterMap_filter_isCall hread, filter_isCall_publicationBlock, List.filterMap_append,
    hstatics, List.filterMap_cons_none hmetatable,
    List.filterMap_cons_some (publishedTable?_global name)]
  rfl

end Interface
end LuaBindings
