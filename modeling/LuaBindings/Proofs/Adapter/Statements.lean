import LuaBindings.Proofs.Adapter.Alignment
import LuaBindings.Proofs.TokenTree.Fitting

/-!
# The texts of an adapter

The statements of an adapter and the line that opens it are fixed texts with names, types and
literals put into them. If the names are identifiers and the types fit, they open and close what
they should (`Adapter.line_of_mem_setup`, `PreparedMethod.Fitting.completes_header`).
-/

set_option autoImplicit false

namespace LuaBindings

open NestingScan
open Terminal (IsLexeme)

namespace Adapter

theorem isLexeme_guardName {name : String} (h : IsLexeme .ident name) :
    IsLexeme .ident (guardName name) := by
  have hguard := Terminal.next?_name_append (by decide) h
    (by decide : "_ud_ref".toList.all Terminal.isNameChar = true)
  rwa [← String.toList_append] at hguard

/-! ### Statements -/

namespace SetupStatement

theorem text_borrow (name pointee : String) (isMut : Bool) :
    (borrow name pointee isMut).text .default =
      (if isMut then "let mut " else "let ") ++ (guardName name ++
        ((if isMut then ": std::cell::RefMut<" else ": std::cell::Ref<") ++ (pointee ++ ("> = " ++
          (name ++ (if isMut then ".borrow_mut()?;" else ".borrow()?;")))))) := by
  rw [← String.toList_inj]
  unfold text
  cases isMut <;>
    simp [toString, RuntimeTarget.default]

theorem text_rebind (name : String) (isMut isMutBinding : Bool) :
    (rebind name isMut isMutBinding).text .default =
      (if isMutBinding then "let mut " else "let ") ++ (name ++
        ((if isMut then " = &mut *" else " = &*") ++ (guardName name ++ ";"))) := by
  rw [← String.toList_inj]
  unfold text
  cases isMut <;> cases isMutBinding <;>
    simp [mutText, toString]

section
variable {groups : List Delimiter} {name : String} (hname : IsLexeme .ident name)
include hname

theorem line_borrow {pointee : String} (hpointee : Fits pointee) (isMut : Bool) :
    Line nests groups ((borrow name pointee isMut).text .default) groups := by
  intro Ends rest hrest
  have hall (front colon call : String) (hfront : opensBehind [] front = some [])
      (hcolon : opensBehind [] colon = some []) (hcall : opensBehind [] call = some [])
      (hbreaks : ∀ text ∈ [colon, call], ∀ rest, Breaks (text.toList ++ rest)) :
      Completes nests Ends groups ((front ++ (guardName name ++ (colon ++ (pointee ++ ("> = " ++
        (name ++ call)))))).toList ++ '\n' :: rest) := by
    simp only [String.toList_append, List.append_assoc]
    -- from the end to the front
    have h := Completes.text [] call [] hcall (hrest.blank (c := '\n') rfl)
    have h := h.ident (hbreaks call (by simp) _) hname rfl
    have h := hpointee (Completes.joins_text [] "> = " [] (by decide) (by decide) h)
    have h := Completes.text [] colon [] hcolon h
    have h := h.ident (hbreaks colon (by simp) _) (isLexeme_guardName hname) rfl
    exact Completes.text [] front [] hfront h
  rw [text_borrow]
  cases isMut <;>
    exact hall _ _ _ (by decide) (by decide) (by decide) (by
      simp only [List.forall_mem_cons]
      exact ⟨breaks_text _ (by decide), breaks_text _ (by decide), by simp⟩)

theorem line_rebind (isMut isMutBinding : Bool) :
    Line nests groups ((rebind name isMut isMutBinding).text .default) groups := by
  intro Ends rest hrest
  have hall (front equals : String) (hfront : opensBehind [] front = some [])
      (hequals : opensBehind [] equals = some [])
      (hbreaks : ∀ rest, Breaks (equals.toList ++ rest)) :
      Completes nests Ends groups ((front ++ (name ++ (equals ++ (guardName name ++ ";")))).toList ++
        '\n' :: rest) := by
    simp only [String.toList_append, List.append_assoc]
    have h := Completes.text [] ";" [] (by decide) (hrest.blank (c := '\n') rfl)
    have h := h.ident (breaks_text ";" (by decide) _) (isLexeme_guardName hname) rfl
    have h := (Completes.text [] equals [] hequals h).ident (hbreaks _) hname rfl
    exact Completes.text [] front [] hfront h
  rw [text_rebind]
  cases isMut <;> cases isMutBinding <;>
    exact hall _ _ (by decide) (by decide) (breaks_text _ (by decide))

end

/-! The statement that takes the arguments out of the pack -/

section
variable {groups : List Delimiter} {Ends : List Delimiter → List Char → Prop} {rest : List Char}

theorem completes_tuple {texts : List String} (h : ∀ text ∈ texts, Fits text)
    (hrest : Completes nests Ends groups rest) :
    Completes nests Ends groups ((tupleText texts).toList ++ rest) := by
  unfold tupleText
  split
  · rename_i single
    have htext : s!"({single},)" = "(" ++ single ++ ",)" := by
      simp [toString]
    rw [htext]
    exact (h single List.mem_cons_self).enclosed "(" ",)" .paren (by decide)
      (by decide) (by decide) hrest
  · exact (fits_list h).enclosed "(" ")" .paren (by decide) (by decide) (by decide)
      hrest

theorem fits_some {text : String} (h : Fits text) : Fits ("Some(" ++ text ++ ")") :=
  fun _ _ _ hrest => h.enclosed "Some(" ")" .paren (by decide) (by decide)
    (by decide) hrest.completes

theorem fits_callTexts {context : String} (hcontext : IsLexeme .ident context)
    (displayName : String) (names : List String) :
    ∀ text ∈ callTexts context displayName (names.map Literal.quote), Fits text := by
  have hnames : Fits (String.intercalate ", " (names.map Literal.quote)) :=
    fits_list (List.forall_mem_map.2 fun name _ => fits_quote name)
  have harray : Fits ("&[" ++ String.intercalate ", " (names.map Literal.quote) ++ "]") :=
    fun _ _ _ hrest => hnames.enclosed "&[" "]" .bracket (by decide) (by decide)
      (by decide) hrest.completes
  have hpack : IsLexeme .ident packBinding := by decide
  simp only [callTexts, List.forall_mem_cons]
  exact ⟨fits_ident hpack, fits_ident hcontext, fits_some (fits_quote displayName),
    fits_some harray, by simp⟩

/-- What comes behind the patterns. -/
def extractTail (slots : List Slot) (context displayName : String) : String :=
  ": " ++ (tupleText (slots.map Slot.type) ++ (" = " ++
    ("crate::lua::FromArgs::from_arguments(" ++ String.intercalate ", "
      (callTexts context displayName ((slots.map Slot.name).map Literal.quote)) ++ ")?;")))

theorem text_extract_default (slots : List Slot) (context displayName : String) :
    (extract slots context displayName).text .default =
      "let " ++ (tupleText (slots.map fun slot => slot.pattern.text) ++
        extractTail slots context displayName) := by
  have hnames : slots.map (fun slot => Literal.quote slot.name) =
      (slots.map Slot.name).map Literal.quote := by
    rw [List.map_map]
    rfl
  rw [text_extract, hnames, ← String.toList_inj]
  unfold extractTail
  simp [RuntimeTarget.default]

theorem completes_extractTail {slots : List Slot} {context : String}
    (hcontext : IsLexeme .ident context) (htypes : ∀ slot ∈ slots, Fits slot.type)
    (displayName : String) (hrest : Completes nests Ends groups rest) :
    Completes nests Ends groups
      ((extractTail slots context displayName).toList ++ '\n' :: rest) := by
  have hcall : Completes nests Ends groups (("crate::lua::FromArgs::from_arguments(" ++
      String.intercalate ", " (callTexts context displayName
        ((slots.map Slot.name).map Literal.quote)) ++ ")?;").toList ++ '\n' :: rest) :=
    (fits_list (fits_callTexts hcontext displayName _)).enclosed _ _ .paren (by decide)
      (by decide) (by decide) (hrest.blank (c := '\n') rfl)
  unfold extractTail
  generalize "crate::lua::FromArgs::from_arguments(" ++ String.intercalate ", " _ ++ ")?;" = call
    at hcall ⊢
  simp only [String.toList_append, List.append_assoc]
  have h := Completes.text [] " = " [] (by decide) hcall
  have h := completes_tuple (List.forall_mem_map.2 htypes) h
  exact Completes.text [] ": " [] (by decide) h

theorem line_extract {slots : List Slot} {context : String} (hcontext : IsLexeme .ident context)
    (hpatterns : ∀ slot ∈ slots, Fits slot.pattern.text)
    (htypes : ∀ slot ∈ slots, Fits slot.type) (displayName : String) :
    Line nests groups ((extract slots context displayName).text .default) groups := by
  intro Ends rest hrest
  rw [text_extract_default]
  simp only [String.toList_append, List.append_assoc]
  have h := completes_tuple (List.forall_mem_map.2 hpatterns)
    (completes_extractTail hcontext htypes displayName hrest)
  exact Completes.text [] "let " [] (by decide) h

end
end SetupStatement

theorem fits_pattern {name : String} (h : IsLexeme .ident name) (isMut : Bool) :
    Fits (Pattern.binding isMut name).text := by
  have hname := fits_ident h
  cases isMut with
  | false => rwa [Pattern.text, mutText, if_neg Bool.false_ne_true, String.empty_append]
  | true => exact hname.behind_text "mut " (by decide)

/-- A type of the runtime. -/
theorem fits_item {name : String} (h : IsLexeme .ident name) :
    Fits (RuntimeTarget.default.item name) :=
  (fits_ident h).behind_text "mlua::" (by decide)

theorem fits_slots {args : List Argument} (hnames : ∀ a ∈ args, IsLexeme .ident a.name)
    (htypes : ∀ a ∈ args, Fits a.passing.type.text) (convention : CallConvention) :
    ∀ slot ∈ slots .default convention args, Fits slot.pattern.text ∧ Fits slot.type := by
  have hslots : ∀ entry ∈ args.map (slot .default), Fits entry.pattern.text ∧ Fits entry.type := by
    refine List.forall_mem_map.2 fun a ha => ⟨?_, ?_⟩
    · rw [pattern_slot]
      exact fits_pattern (hnames a ha) _
    · have htype := htypes a ha
      unfold slot
      cases hpassing : a.passing with
      | value type =>
        rw [hpassing] at htype
        exact htype
      | handle isMut pointee =>
        have hdata : IsLexeme .ident "AnyUserData" := by decide
        exact fits_item hdata
  cases convention with
  | receiver => exact hslots
  | table =>
    have hwildcard : IsLexeme .ident "_" := by decide
    have htable : IsLexeme .ident "Table" := by decide
    exact List.forall_mem_cons.2 ⟨⟨fits_ident hwildcard, fits_item htable⟩, hslots⟩

/-- Every statement that sets up arguments is a line that opens and closes nothing. -/
theorem line_of_mem_setup {context : String} {s : Signature} (hcontext : IsLexeme .ident context)
    (hnames : ∀ a ∈ s.args, IsLexeme .ident a.name)
    (htypes : ∀ a ∈ s.args, Fits a.passing.type.text) (convention : CallConvention)
    (groups : List Delimiter) :
    ∀ statement ∈ setup .default convention context s,
      Line nests groups (statement.text .default) groups := by
  unfold setup
  split
  · simp
  · refine List.forall_mem_cons.2 ⟨?_, fun statement hstatement => ?_⟩
    · have hslots := fits_slots hnames htypes convention
      exact SetupStatement.line_extract hcontext (fun slot hslot => (hslots slot hslot).1)
        (fun slot hslot => (hslots slot hslot).2) s.displayName
    · obtain ⟨a, ha, hmem⟩ := List.mem_flatMap.1 hstatement
      have htype := htypes a ha
      unfold borrowStatements at hmem
      cases hpassing : a.passing with
      | value type => simp [hpassing] at hmem
      | handle isMut pointee =>
        rw [hpassing] at hmem htype
        simp only [List.mem_cons, List.not_mem_nil, or_false] at hmem
        rcases hmem with rfl | rfl
        · exact SetupStatement.line_borrow (hnames a ha) htype isMut
        · exact SetupStatement.line_rebind (hnames a ha) isMut a.isMutBinding

end Adapter

/-! ### Closures -/

namespace PreparedMethod

/-- The parts of a method that are put into its closures fit there. -/
structure Fitting (m : PreparedMethod) : Prop where
  target : m.target = .default
  context : IsLexeme .ident ((m.signature.context.map ContextBinding.name).getD contextBinding)
  names : ∀ a ∈ m.signature.args, IsLexeme .ident a.name
  types : ∀ a ∈ m.signature.args, Fits a.passing.type.text
  returnType : ∀ type, m.method.returnType = some type → Fits type.text
  body (groups : List Delimiter) : Lines nests groups (Layout.lines m.body) groups

namespace Fitting

variable {m : PreparedMethod} {groups : List Delimiter}
  {Ends : List Delimiter → List Char → Prop} {rest : List Char}

theorem lines_statements (h : m.Fitting) (convention : CallConvention) (groups : List Delimiter) :
    Lines nests groups (m.closure convention).statements groups := by
  refine (lines_of_forall ?_).append (h.body groups)
  have hsetup := Adapter.line_of_mem_setup h.context h.names h.types convention groups
  simp only [closure, h.target]
  exact List.forall_mem_map.2 hsetup

theorem completes_inputs (h : m.Fitting) (convention : CallConvention)
    (hrest : Completes nests Ends groups rest) (hbreaks : Breaks rest) :
    Completes nests Ends groups
      ((String.intercalate ", " (m.closure convention).inputs).toList ++ rest) := by
  have hreceiver : IsLexeme .ident Renaming.receiverBinding := by decide
  have hpack : IsLexeme .ident Adapter.packBinding := by decide
  refine Completes.list_concat (List.forall_mem_append.2 ⟨?_, ?_⟩) ?_
  · exact List.forall_mem_singleton.2 (fits_ident h.context)
  · intro name hname
    have hname : m.signature.hasReceiver = true ∧ Renaming.receiverBinding = name := by
      simpa [closure] using hname
    rw [← hname.2]
    exact fits_ident hreceiver
  · change Completes nests Ends groups (((if m.signature.args.isEmpty then none
      else some Adapter.packBinding).getD "()").toList ++ rest)
    split
    · exact Completes.text [] "()" [] (by decide) hrest
    · exact hrest.ident hbreaks hpack rfl

theorem fits_returnType (h : m.Fitting) :
    Fits ((m.method.returnType.map RustType.text).getD "()") := by
  cases hreturns : m.method.returnType with
  | none => exact fun _ _ _ hrest => Completes.text [] "()" [] (by decide) hrest.completes
  | some type => exact h.returnType type hreturns

theorem header_eq (h : m.Fitting) (convention : CallConvention) :
    (m.closure convention).header =
      "|" ++ (String.intercalate ", " (m.closure convention).inputs ++
        if m.method.isAsync then "| async move \x7b"
        else
          "| -> mlua::Result<" ++
            ((m.method.returnType.map RustType.text).getD "()" ++ "> \x7b")) := by
  have hreturns : (m.closure convention).returnType =
      "mlua::Result<" ++ ((m.method.returnType.map RustType.text).getD "()" ++ ">") := by
    change m.returnType = _
    rw [← String.toList_inj]
    simp only [PreparedMethod.returnType, h.target, toString, RuntimeTarget.resultType,
      RuntimeTarget.item, RuntimeTarget.default]
    simp
  unfold Closure.header
  rw [hreturns]
  change (if m.method.isAsync then _ else _) = _
  split <;>
    · rw [← String.toList_inj]
      simp [toString]

/-- The line that opens a closure opens its braces. -/
theorem completes_header (h : m.Fitting) (convention : CallConvention)
    (hrest : Completes nests Ends (.brace :: groups) rest) :
    Completes nests Ends groups ((m.closure convention).header.toList ++ rest) := by
  rw [h.header_eq, String.toList_append, List.append_assoc]
  refine Completes.text [] "|" [] (by decide) ?_
  rw [String.toList_append, List.append_assoc]
  split
  · have hopen := Completes.text [] "| async move \x7b" [.brace] (by decide) hrest
    exact h.completes_inputs convention hopen (breaks_text _ (by decide) _)
  · simp only [String.toList_append, List.append_assoc]
    have hopen : Joins nests Ends groups ("> \x7b".toList ++ rest) :=
      Completes.joins_text [] "> \x7b" [.brace] (by decide) (by decide) hrest
    have hresult := Completes.text [] "| -> mlua::Result<" [] (by decide)
      (h.fits_returnType hopen)
    exact h.completes_inputs convention hresult (breaks_text _ (by decide) _)

end Fitting
end PreparedMethod
end LuaBindings
