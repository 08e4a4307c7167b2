import LuaBindings.Proofs.Adapter.Statements

/-!
# Reading a setup back

A line of a setup shows what its statement binds: the names in its patterns, or the name behind
`let` and the one that it is taken from. So what the lines of an adapter bind, read back from their
tokens one by one, is what its statements bind (`PreparedMethod.Fitting.emitted_setup`).
-/

set_option autoImplicit false

namespace LuaBindings

open NestingScan
open Terminal (IsLexeme)

/-! ### Tokens on record -/

namespace NestingScan

def record (seen : List Token.Content) (content : Token.Content) : Option (List Token.Content) :=
  some (seen ++ [content])

section
variable {groups : List Delimiter} {text rest : List Char}

theorem foldlM_record (seen contents : List Token.Content) :
    contents.foldlM record seen = some (seen ++ contents) := by
  induction contents generalizing seen with
  | nil => rw [List.append_nil]; rfl
  | cons content contents ih =>
    rw [List.foldlM_cons, record, Option.bind_eq_bind, Option.bind_some, ih, List.append_assoc]
    rfl

/-- What is passed over with its groups closed is on record as well. -/
theorem Completes.recorded {front : List Token.Content}
    {Ends : List Token.Content → List Char → Prop}
    (h : Completes nests (fun _ text => ∀ more, Completes record Ends (front ++ more) text)
      groups text) : ∀ more, Completes record Ends (front ++ more) text := by
  induction h with
  | ends hends => exact hends
  | blank hc _ ih => exact fun more => .blank hc (ih more)
  | comment hstep hkind _ ih => exact fun more => .comment hstep hkind (ih more)
  | @token _ _ kind lexeme _ hstep hkind _ _ ih =>
    intro more
    have h := ih (more ++ [(kind, lexeme)])
    rw [← List.append_assoc] at h
    exact .token hstep hkind rfl h

theorem Completes.recorded_text {Ends : List Token.Content → List Char → Prop}
    {seen contents : List Token.Content} {text : String}
    (h : fixedContents text.toList.length text.toList = some contents)
    (hrest : Completes record Ends (seen ++ contents) rest) :
    Completes record Ends seen (text.toList ++ rest) :=
  hrest.fixed h (foldlM_record seen contents)

/-- A text is read as the tokens that are on record behind it. -/
theorem exists_of_recorded {P : List Token.Content → Prop}
    (hnests : Completes nests (AtEnd (· = [])) [] text)
    (hrecord : Completes record (AtEnd P) [] text) :
    ∃ trees, TokenTree.ofText text = .ok trees ∧
      P ((TokenTree.flatten trees).map Token.content) := by
  obtain ⟨trees, htrees⟩ := hnests.exists_trees
  obtain ⟨-, -, hflatten⟩ := TokenTree.outcome_of_ofText htrees
  obtain ⟨-, last, hrun, hlast⟩ := hrecord.significant .first
  rw [foldlM_record, List.nil_append] at hrun
  cases hrun
  exact ⟨trees, htrees, hflatten ▸ hlast⟩

end
end NestingScan

namespace Adapter

/-! ### What a line binds -/

/-- What a line shows of its statement. -/
inductive Let where
  | unpack (patterns : List Pattern)
  | guard (name handle : String) (isMut : Bool)
  | pointee (name guard : String) (isMut : Bool)
  deriving DecidableEq, Repr

namespace Let

/-- What a line binds. What stands behind its equals sign is read first. -/
def step (b : Bindings) : Let → Bindings
  | unpack patterns => b.unpack (b (identifier packBinding)) 0 patterns
  | guard name handle isMut => b.bind name (.guard isMut (b (identifier handle)))
  | pointee name bound isMut => b.bind name (.pointee isMut (b (identifier bound)))

def ofStatement : SetupStatement → Let
  | .extract slots _ _ => unpack (slots.map Slot.pattern)
  | .borrow name _ isMut => guard (guardName name) name isMut
  | .rebind name isMut _ => pointee name (guardName name) isMut

theorem step_ofStatement (s : SetupStatement) (b : Bindings) :
    step b (ofStatement s) = Bindings.step s b := by
  cases s <;> rfl

/-- The patterns up to the end of a group. -/
def patterns : List Token.Content → List Pattern
  | (.punct, _) :: rest => patterns rest
  | (.ident, ['m', 'u', 't']) :: (.ident, name) :: rest =>
    .binding true (String.ofList name) :: patterns rest
  | (.ident, ['_']) :: rest => .wildcard :: patterns rest
  | (.ident, name) :: rest => .binding false (String.ofList name) :: patterns rest
  | _ => []

/-- The name behind `let`. -/
def name? : List Token.Content → Option String
  | (.ident, ['m', 'u', 't']) :: (.ident, name) :: _ => some (String.ofList name)
  | (.ident, name) :: _ => some (String.ofList name)
  | _ => none

/-- What is bound to the name, read from the end of the line. -/
def value? (name : String) : List Token.Content → Option Let
  | (.punct, [';']) :: (.punct, ['?']) :: (.closer .paren, _) :: (.opener .paren, _) ::
      (.ident, call) :: (.punct, ['.']) :: (.ident, handle) :: _ =>
    if call = "borrow_mut".toList then some (.guard name (String.ofList handle) true)
    else if call = "borrow".toList then some (.guard name (String.ofList handle) false)
    else none
  | (.punct, [';']) :: (.ident, bound) :: (.punct, ['*']) :: (.ident, ['m', 'u', 't']) ::
      (.punct, ['&']) :: _ => some (.pointee name (String.ofList bound) true)
  | (.punct, [';']) :: (.ident, bound) :: (.punct, ['*']) :: (.punct, ['&']) :: _ =>
    some (.pointee name (String.ofList bound) false)
  | _ => none

def ofContents? : List Token.Content → Option Let
  | (.ident, ['l', 'e', 't']) :: (.opener .paren, _) :: rest => some (.unpack (patterns rest))
  | (.ident, ['l', 'e', 't']) :: rest => (name? rest).bind fun name => value? name rest.reverse
  | _ => none

def ofText? (line : String) : Option Let :=
  (TokenTree.ofSource line).toOption.bind fun trees =>
    ofContents? ((TokenTree.flatten trees).map Token.content)

/-- Whatever is on record of a type, the line goes on behind it. -/
theorem recorded_type {type : String} (htype : Fits type) {front : List Token.Content}
    {Ends : List Token.Content → List Char → Prop} {rest : List Char}
    (hrest : ∀ more, Completes record Ends (front ++ more) rest) :
    Completes record Ends front (type.toList ++ ("> = ".toList ++ rest)) := by
  have hends : Completes nests (fun _ text => ∀ more, Completes record Ends (front ++ more) text)
      [] rest := .ends hrest
  have h := (htype (Completes.joins_text [] "> = " [] (by decide) (by decide) hends)).recorded []
  rwa [List.append_nil] at h

/-- A line is read as what its tokens on record are read as. -/
theorem ofText?_of_recorded {line : String} {binding : Let}
    (hline : Line nests [] line [])
    (hrecord : Completes record (AtEnd (ofContents? · = some binding)) [] (line.toList ++ ['\n'])) :
    ofText? (line ++ "\n") = some binding := by
  have hnests : Completes nests (AtEnd (· = [])) [] (line.toList ++ ['\n']) :=
    hline (.ends ⟨rfl, rfl⟩)
  obtain ⟨trees, htrees, hread⟩ := exists_of_recorded hnests hrecord
  have htext : (line ++ "\n").toList = line.toList ++ ['\n'] := by simp
  rw [ofText?, TokenTree.ofSource, htext, htrees]
  exact hread

/-! ### Borrowing and binding again -/

def opening (isMut : Bool) : List Token.Content :=
  (.ident, ['l', 'e', 't']) :: if isMut then [(.ident, ['m', 'u', 't'])] else []

theorem fixed_opening (isMut : Bool) :
    fixedContents (if isMut then "let mut " else "let ").toList.length
      (if isMut then "let mut " else "let ").toList = some (opening isMut) := by
  cases isMut <;> decide

def equals (isMut : Bool) : List Token.Content :=
  (.punct, ['=']) :: (.punct, ['&']) ::
    ((if isMut then [(.ident, ['m', 'u', 't'])] else []) ++ [(.punct, ['*'])])

theorem fixed_equals (isMut : Bool) :
    fixedContents (if isMut then " = &mut *" else " = &*").toList.length
      (if isMut then " = &mut *" else " = &*").toList = some (equals isMut) := by
  cases isMut <;> decide

def path (isMut : Bool) : List Token.Content :=
  [(.punct, [':']), (.ident, "std".toList), (.punct, "::".toList), (.ident, "cell".toList),
    (.punct, "::".toList), (.ident, (if isMut then "RefMut" else "Ref").toList), (.punct, ['<'])]

theorem fixed_path (isMut : Bool) :
    fixedContents (if isMut then ": std::cell::RefMut<" else ": std::cell::Ref<").toList.length
      (if isMut then ": std::cell::RefMut<" else ": std::cell::Ref<").toList =
        some (path isMut) := by
  cases isMut <;> decide

def call (isMut : Bool) : List Token.Content :=
  [(.punct, ['.']), (.ident, (if isMut then "borrow_mut" else "borrow").toList),
    (.opener .paren, ['(']), (.closer .paren, [')']), (.punct, ['?']), (.punct, [';'])]

theorem fixed_call (isMut : Bool) :
    fixedContents (if isMut then ".borrow_mut()?;" else ".borrow()?;").toList.length
      (if isMut then ".borrow_mut()?;" else ".borrow()?;").toList = some (call isMut) := by
  cases isMut <;> decide

theorem fixed_semicolon : fixedContents ";".toList.length ";".toList = some [(.punct, [';'])] := by
  decide

section
variable {name : String} (hname : IsLexeme .ident name)
include hname

theorem ofText?_borrow {pointee : String} (hpointee : Fits pointee) (isMut : Bool) :
    ofText? ((SetupStatement.borrow name pointee isMut).text .default ++ "\n") =
      some (ofStatement (.borrow name pointee isMut)) := by
  refine ofText?_of_recorded (SetupStatement.line_borrow hname hpointee isMut) ?_
  have hcall : ∀ rest,
      Breaks ((if isMut then ".borrow_mut()?;" else ".borrow()?;").toList ++ rest) := by
    cases isMut <;> exact breaks_text _ (by decide)
  have hcolon : ∀ rest, Breaks
      ((if isMut then ": std::cell::RefMut<" else ": std::cell::Ref<").toList ++ rest) := by
    cases isMut <;> exact breaks_text _ (by decide)
  rw [SetupStatement.text_borrow]
  simp only [String.toList_append, List.append_assoc]
  -- whatever is on record of the type, the name of the handle comes behind it
  have hhandle (more : List Token.Content) : Completes record
      (AtEnd (ofContents? · = some (.guard (guardName name) name isMut)))
      (opening isMut ++ [(.ident, (guardName name).toList)] ++ path isMut ++ more)
      (name.toList ++ ((if isMut then ".borrow_mut()?;" else ".borrow()?;").toList ++ ['\n'])) := by
    refine (Completes.recorded_text (fixed_call isMut)
      (.blank rfl (.ends ⟨rfl, ?_⟩))).ident (hcall _) hname rfl
    cases isMut <;> simp [opening, path, call, ofContents?, name?, value?]
  have h := recorded_type hpointee hhandle
  have h := (Completes.recorded_text (fixed_path isMut) h).ident (hcolon _)
    (isLexeme_guardName hname) rfl
  exact Completes.recorded_text (fixed_opening isMut) h

theorem ofText?_rebind (isMut isMutBinding : Bool) :
    ofText? ((SetupStatement.rebind name isMut isMutBinding).text .default ++ "\n") =
      some (ofStatement (.rebind name isMut isMutBinding)) := by
  refine ofText?_of_recorded (SetupStatement.line_rebind hname isMut isMutBinding) ?_
  have hequals : ∀ rest, Breaks ((if isMut then " = &mut *" else " = &*").toList ++ rest) := by
    cases isMut <;> exact breaks_text _ (by decide)
  rw [SetupStatement.text_rebind]
  simp only [String.toList_append, List.append_assoc]
  -- from the end to the front
  have h : Completes record (AtEnd (ofContents? · = some (.pointee name (guardName name) isMut)))
      (opening isMutBinding ++ [(.ident, name.toList)] ++ equals isMut ++
        [(.ident, (guardName name).toList)]) (";".toList ++ ['\n']) := by
    refine Completes.recorded_text fixed_semicolon (.blank rfl (.ends ⟨rfl, ?_⟩))
    cases isMut <;> cases isMutBinding <;> simp [opening, equals, ofContents?, name?, value?]
  have h := h.ident (breaks_text ";" (by decide) _) (isLexeme_guardName hname) rfl
  have h := (Completes.recorded_text (fixed_equals isMut) h).ident (hequals _) hname rfl
  exact Completes.recorded_text (fixed_opening isMutBinding) h

end

/-! ### The patterns of a tuple -/

def Shows : Pattern → Prop
  | .wildcard => True
  | .binding _ name => IsLexeme .ident name ∧ name ≠ "_"

def patternContents : Pattern → List Token.Content
  | .wildcard => [(.ident, ['_'])]
  | .binding true name => [(.ident, ['m', 'u', 't']), (.ident, name.toList)]
  | .binding false name => [(.ident, name.toList)]

def listContents : List Pattern → List Token.Content
  | [] => []
  | [p] => patternContents p
  | p :: q :: rest => patternContents p ++ (.punct, [',']) :: listContents (q :: rest)

theorem patterns_append {p : Pattern} (h : Shows p) {more : List Token.Content}
    (hmore : ∀ content ∈ more.head?, content.1 ≠ .ident) :
    patterns (patternContents p ++ more) = p :: patterns more := by
  cases p with
  | wildcard => rfl
  | binding isMut name =>
    cases isMut with
    | true => simp [patternContents, patterns]
    | false =>
      have hname : name.toList ≠ ['_'] := fun heq => h.2 (String.toList_inj.1 heq)
      change patterns ((.ident, name.toList) :: more) = _
      rw [patterns, String.ofList_toList]
      · intro other rest heq
        cases heq
        exact absurd rfl (hmore _ rfl)
      · exact hname

theorem patterns_list {ps : List Pattern} (h : ∀ p ∈ ps, Shows p) {more : List Token.Content}
    (hmore : ∀ content ∈ more.head?, content.1 ≠ .ident) (hends : patterns more = []) :
    patterns (listContents ps ++ more) = ps := by
  fun_induction listContents ps with
  | case1 => exact hends
  | case2 p => rw [patterns_append (h p List.mem_cons_self) hmore, hends]
  | case3 p q rest ih =>
    obtain ⟨hp, hrest⟩ := List.forall_mem_cons.1 h
    rw [List.append_assoc, patterns_append hp (by simp), List.cons_append, patterns, ih hrest]

section
variable {seen : List Token.Content} {Ends : List Token.Content → List Char → Prop}
  {rest : List Char}

theorem fits_of_shows {p : Pattern} (h : Shows p) : Fits p.text := by
  cases p with
  | wildcard =>
    have hwildcard : IsLexeme .ident "_" := by decide
    exact fits_ident hwildcard
  | binding isMut name => exact fits_pattern h.1 isMut

theorem recorded_pattern {p : Pattern} (h : Shows p) (hbreaks : Breaks rest)
    (hrest : Completes record Ends (seen ++ patternContents p) rest) :
    Completes record Ends seen (p.text.toList ++ rest) := by
  cases p with
  | wildcard =>
    have hwildcard : IsLexeme .ident "_" := by decide
    exact hrest.ident hbreaks hwildcard rfl
  | binding isMut name =>
    cases isMut with
    | false =>
      rw [Pattern.text, mutText, if_neg Bool.false_ne_true, String.empty_append]
      exact hrest.ident hbreaks h.1 rfl
    | true =>
      rw [Pattern.text, mutText, if_pos rfl, String.toList_append, List.append_assoc]
      have hmut : fixedContents "mut ".toList.length "mut ".toList =
          some [(.ident, ['m', 'u', 't'])] := by decide
      refine Completes.recorded_text hmut (Completes.ident ?_ hbreaks h.1 rfl)
      rwa [List.append_assoc]

theorem recorded_list {ps : List Pattern} (h : ∀ p ∈ ps, Shows p) (hbreaks : Breaks rest)
    (hrest : Completes record Ends (seen ++ listContents ps) rest) :
    Completes record Ends seen
      ((String.intercalate ", " (ps.map Pattern.text)).toList ++ rest) := by
  fun_induction listContents ps generalizing seen with
  | case1 => rwa [List.append_nil] at hrest
  | case2 p => exact recorded_pattern (h p List.mem_cons_self) hbreaks hrest
  | case3 p q others ih =>
    obtain ⟨hp, hothers⟩ := List.forall_mem_cons.1 h
    have hcomma : fixedContents ", ".toList.length ", ".toList = some [(.punct, [','])] := by
      decide
    have hp := recorded_pattern hp (breaks_text ", " (by decide) _)
      (Completes.recorded_text hcomma (ih hothers (by simpa using hrest)))
    rw [String.toList_intercalate] at hp ⊢
    simpa [List.intercalate_cons_cons] using hp

/-- A tuple of patterns, in front of a text that may come behind whatever ends it. -/
theorem recorded_tuple {ps : List Pattern} (h : ∀ p ∈ ps, Shows p)
    (hrest : ∀ back, (∀ more, patterns (listContents ps ++ (back ++ more)) = ps) →
      Completes record Ends (seen ++ (.opener .paren, ['(']) :: (listContents ps ++ back)) rest) :
    Completes record Ends seen ((tupleText (ps.map Pattern.text)).toList ++ rest) := by
  have hopen : fixedContents "(".toList.length "(".toList = some [(.opener .paren, ['('])] := by
    decide
  have hall (back : String) {contents : List Token.Content}
      (hback : fixedContents back.toList.length back.toList = some contents)
      (hbreaks : ∀ rest, Breaks (back.toList ++ rest))
      (hends : ∀ more, patterns (listContents ps ++ (contents ++ more)) = ps) :
      Completes record Ends seen
        (("(" ++ String.intercalate ", " (ps.map Pattern.text) ++ back).toList ++ rest) := by
    simp only [String.toList_append, List.append_assoc]
    refine Completes.recorded_text hopen (recorded_list h (hbreaks rest) ?_)
    refine Completes.recorded_text hback ?_
    simpa using hrest contents hends
  unfold tupleText
  split
  · rename_i single htexts
    have htext : s!"({single},)" =
        "(" ++ String.intercalate ", " (ps.map Pattern.text) ++ ",)" := by
      rw [htexts]
      simp [toString]
    have hback : fixedContents ",)".toList.length ",)".toList =
        some [(.punct, [',']), (.closer .paren, [')'])] := by
      decide
    rw [htext]
    exact hall ",)" hback (breaks_text _ (by decide)) fun more => patterns_list h (by simp) rfl
  · have hback : fixedContents ")".toList.length ")".toList =
        some [(.closer .paren, [')'])] := by
      decide
    exact hall ")" hback (breaks_text _ (by decide)) fun more => patterns_list h (by simp) rfl

end

theorem ofText?_extract {slots : List Slot} {context : String} (hcontext : IsLexeme .ident context)
    (hpatterns : ∀ slot ∈ slots, Shows slot.pattern) (htypes : ∀ slot ∈ slots, Fits slot.type)
    (displayName : String) :
    ofText? ((SetupStatement.extract slots context displayName).text .default ++ "\n") =
      some (ofStatement (.extract slots context displayName)) := by
  have htexts : slots.map (fun slot => slot.pattern.text) =
      (slots.map Slot.pattern).map Pattern.text := by
    rw [List.map_map]
    rfl
  have hlet : fixedContents "let ".toList.length "let ".toList =
      some [(.ident, ['l', 'e', 't'])] := by
    decide
  refine ofText?_of_recorded (SetupStatement.line_extract hcontext
    (fun slot hslot => fits_of_shows (hpatterns slot hslot)) htypes displayName) ?_
  rw [SetupStatement.text_extract_default, htexts]
  simp only [String.toList_append, List.append_assoc]
  refine Completes.recorded_text hlet
    (recorded_tuple (List.forall_mem_map.2 hpatterns) fun back hback => ?_)
  -- whatever is on record behind the patterns, the line is read by them
  have hends : Completes nests (fun _ text => ∀ more, Completes record
      (AtEnd (ofContents? · = some (ofStatement (.extract slots context displayName))))
      ([(.ident, ['l', 'e', 't'])] ++ (.opener .paren, ['(']) ::
        (listContents (slots.map Slot.pattern) ++ back) ++ more) text) [] [] := by
    refine .ends fun more => .ends ⟨rfl, ?_⟩
    change some (unpack (patterns ((listContents (slots.map Slot.pattern) ++ back) ++ more))) = _
    rw [List.append_assoc, hback more]
    rfl
  have h := (SetupStatement.completes_extractTail hcontext htypes displayName hends).recorded []
  rwa [List.append_nil] at h

/-! ### The setup -/

theorem shows_slots {args : List Argument}
    (hnames : ∀ a ∈ args, IsLexeme .ident a.name ∧ a.name ≠ "_") (convention : CallConvention) :
    ∀ slot ∈ slots .default convention args, Shows slot.pattern := by
  have hslots : ∀ entry ∈ args.map (slot .default), Shows entry.pattern := by
    refine List.forall_mem_map.2 fun a ha => ?_
    rw [pattern_slot]
    exact hnames a ha
  cases convention with
  | receiver => exact hslots
  | table => exact List.forall_mem_cons.2 ⟨trivial, hslots⟩

/-- Every line of a setup shows what its statement binds. -/
theorem ofText?_of_mem_setup {context : String} {s : Signature}
    (hcontext : IsLexeme .ident context)
    (hnames : ∀ a ∈ s.args, IsLexeme .ident a.name ∧ a.name ≠ "_")
    (htypes : ∀ a ∈ s.args, Fits a.passing.type.text) (convention : CallConvention) :
    ∀ statement ∈ setup .default convention context s,
      ofText? (statement.text .default ++ "\n") = some (ofStatement statement) := by
  unfold setup
  split
  · simp
  · refine List.forall_mem_cons.2 ⟨?_, fun statement hstatement => ?_⟩
    · have hslots := fits_slots (fun a ha => (hnames a ha).1) htypes convention
      exact ofText?_extract hcontext (shows_slots hnames convention)
        (fun slot hslot => (hslots slot hslot).2) s.displayName
    · obtain ⟨a, ha, hmem⟩ := List.mem_flatMap.1 hstatement
      have htype := htypes a ha
      unfold borrowStatements at hmem
      cases hpassing : a.passing with
      | value type => simp [hpassing] at hmem
      | handle isMut pointee =>
        rw [hpassing] at hmem htype
        simp only [List.mem_cons, List.not_mem_nil, or_false] at hmem
        rcases hmem with rfl | rfl
        · exact ofText?_borrow (hnames a ha).1 htype isMut
        · exact ofText?_rebind (hnames a ha).1 isMut a.isMutBinding

end Let

/-- The bindings behind the lines, if each of them can be read. -/
def boundBy? (lines : List String) (b : Bindings) : Option Bindings :=
  lines.foldlM (fun b line => (Let.ofText? (line ++ "\n")).map (Let.step b)) b

theorem boundBy?_eq {statements : List SetupStatement}
    (h : ∀ statement ∈ statements,
      Let.ofText? (statement.text .default ++ "\n") = some (Let.ofStatement statement))
    (b : Bindings) :
    boundBy? (statements.map (SetupStatement.text .default)) b =
      some (Bindings.run statements b) := by
  induction statements generalizing b with
  | nil => rfl
  | cons statement statements ih =>
    obtain ⟨hstatement, hstatements⟩ := List.forall_mem_cons.1 h
    have hrest := ih hstatements (Bindings.step statement b)
    rw [boundBy?] at hrest ⊢
    rw [List.map_cons, List.foldlM_cons, hstatement, Option.map_some, Let.step_ofStatement]
    exact hrest

end Adapter

namespace PreparedMethod.Fitting

open Adapter

variable {m : PreparedMethod} (h : m.Fitting) (hnames : ∀ a ∈ m.signature.args, a.name ≠ "_")
include h hnames

/-- What the lines of a setup bind, as they are printed, is what its statements bind. A parameter
called `_` is left out: as a pattern it binds nothing. -/
theorem emitted_setup (convention : CallConvention) :
    boundBy? (m.closure convention).setup outside =
      some (bound m.target convention (m.closure convention).context m.signature) := by
  simp only [closure, h.target]
  exact boundBy?_eq (Let.ofText?_of_mem_setup h.context
    (fun a ha => ⟨h.names a ha, hnames a ha⟩) h.types convention) outside

/-- So every parameter ends as its own in the text just if no guard is called like one. -/
theorem emitted_hygienic_iff (hdistinct : (m.signature.parameterNames.map identifier).Nodup)
    (convention : CallConvention) :
    ∃ b, boundBy? (m.closure convention).setup outside = some b ∧
      (Hygienic convention m.signature b ↔ Apart m.signature) :=
  ⟨_, h.emitted_setup hnames convention, apart_of_hygienic, hygienic_of_apart hdistinct⟩

end PreparedMethod.Fitting
end LuaBindings
