import LuaBindings.Proofs.RustType.Forms
import LuaBindings.Proofs.RustType.Marks

/-!
# Types read what they are written with

By induction over the syntax, reading the trees of a type gives the type, with its own
trees at each of its nodes.
-/

set_option autoImplicit false

namespace LuaBindings.RustType

open TokenTree

/-! ### The first tree -/

theorem SegmentSyntax.kind_name (s : SegmentSyntax) : s.name.kind = .ident := by
  cases s with
  | plain name => exact name.2
  | applied name => exact name.2

def SegmentSyntax.tail : SegmentSyntax → List TokenTree
  | .plain _ => []
  | .applied _ turbofish opening args closing =>
    maybe turbofish ++ .token opening.1 :: (args.trees ++ [.token closing.1])

theorem SegmentSyntax.trees_eq (s : SegmentSyntax) : s.trees = .token s.name :: s.tail := by
  cases s <;> rfl

theorem PathSyntax.kind_firstName (p : PathSyntax) : p.firstName.kind = .ident := by
  cases p with
  | last segment => exact segment.kind_name
  | cons segment => exact segment.kind_name

theorem PathSyntax.trees_eq (p : PathSyntax) : ∃ rest, p.trees = .token p.firstName :: rest := by
  cases p with
  | last segment => exact ⟨_, segment.trees_eq⟩
  | cons segment colons rest =>
    rw [PathSyntax.trees, segment.trees_eq]
    exact ⟨_, rfl⟩

/-- A type has a first tree, and that is no lifetime. -/
theorem TypeSyntax.trees_eq (t : TypeSyntax) :
    ∃ first rest, t.trees = first :: rest ∧ first.token? (·.kind == .lifetime) = none := by
  cases t with
  | reference amp lifetime mutWord elem =>
    exact ⟨_, _, rfl, by simp [token?, Token.Mark.kind_eq amp]⟩
  | path leading segments =>
    obtain ⟨rest, hrest⟩ := segments.trees_eq
    cases leading with
    | none => exact ⟨_, rest, hrest, by simp [token?, segments.kind_firstName]⟩
    | some colons => exact ⟨_, segments.trees, rfl, by simp [token?, Token.Mark.kind_eq colons]⟩
  | tuple opener elems closer => exact ⟨_, [], rfl, rfl⟩
  | brackets opener inner closer => exact ⟨_, [], rfl, rfl⟩

theorem TypeSyntax.trees_ne_nil (t : TypeSyntax) : t.trees ≠ [] := by
  obtain ⟨first, rest, h, _⟩ := t.trees_eq
  rw [h]
  exact List.cons_ne_nil _ _

theorem ArgSyntax.trees_ne_nil (arg : ArgSyntax) : arg.trees ≠ [] := by
  cases arg with
  | lifetime name => exact List.cons_ne_nil _ _
  | type t => exact t.trees_ne_nil

theorem TypeSyntax.not_mut {t : TypeSyntax} (h : ¬t.BeginsWithMut) :
    t.trees.head?.any (·.isIdent "mut") = false := by
  cases t with
  | reference amp lifetime mutWord elem =>
    simp [TypeSyntax.trees, isIdent_token, Token.isIdent, Token.Mark.kind_eq amp]
  | path leading segments =>
    cases leading with
    | none =>
      obtain ⟨rest, hrest⟩ := segments.trees_eq
      have hname : segments.firstName.text ≠ "mut" := h
      simp [TypeSyntax.trees, maybe, hrest, isIdent_token, Token.isIdent, hname]
    | some colons =>
      simp [TypeSyntax.trees, maybe, isIdent_token, Token.isIdent, Token.Mark.kind_eq colons]
  | tuple opener elems closer => rfl
  | brackets opener inner closer => rfl

/-! ### What stands before a type -/

theorem leadingLifetime_maybe (t : Option (Token.OfKind .lifetime)) (rest : List TokenTree)
    (h : rest.head?.bind (token? (·.kind == .lifetime)) = none) :
    leadingLifetime (maybe t ++ rest) = (t.map fun u => u.1.text, rest) := by
  cases t with
  | none =>
    change leadingLifetime rest = (none, rest)
    rw [leadingLifetime, h]
  | some t => simp [leadingLifetime, maybe, token?, t.2]

theorem leadingToken_maybe {p : TokenTree → Bool} {q : Token → Prop}
    (hpq : ∀ t, q t → p (.token t) = true) (t : Option { t : Token // q t })
    (rest : List TokenTree) (h : t = none → rest.head?.any p = false) :
    leadingToken p (maybe t ++ rest) = (t.isSome, rest) := by
  cases t with
  | none =>
    change leadingToken p rest = (false, rest)
    rw [leadingToken, if_neg (by rw [h rfl]; exact Bool.false_ne_true)]
  | some t => simp [leadingToken, maybe, hpq t.1 t.2]

/-! ### The parts of a path -/

def SegmentSyntax.angle : SegmentSyntax → List TokenTree
  | .plain _ => []
  | .applied _ _ opening args closing =>
    .token opening.1 :: (args.trees ++ [.token closing.1])

def SegmentSyntax.part (s : SegmentSyntax) : PathPart := ⟨s.name.text, s.angle⟩

def PathSyntax.leadingParts : PathSyntax → List PathPart
  | .last _ => []
  | .cons segment _ rest => segment.part :: rest.leadingParts

def PathSyntax.lastPart : PathSyntax → PathPart
  | .last segment => segment.part
  | .cons _ _ rest => rest.lastPart

/-- Behind a segment's name its angle list is read, and nothing of what follows. -/
theorem SegmentSyntax.leadingAngle_tail (s : SegmentSyntax) (rest : List TokenTree)
    (hskip : skipTurbofish rest = rest) (hangle : leadingAngle rest = some ([], rest)) :
    leadingAngle (skipTurbofish (s.tail ++ rest)) = some (s.angle, rest) := by
  cases s with
  | plain name =>
    change leadingAngle (skipTurbofish rest) = some ([], rest)
    rw [hskip, hangle]
  | applied name turbofish opening args closing =>
    have hopen := isPunct_mark opening
    have hread : leadingAngle (.token opening.1 :: (args.trees ++ [.token closing.1] ++ rest)) =
        some (.token opening.1 :: (args.trees ++ [.token closing.1]), rest) := by
      rw [leadingAngle, if_pos hopen, List.append_assoc, List.cons_append, List.nil_append,
        args.balanced.throughAngle_closing (isPunct_mark closing)]
      rfl
    cases turbofish with
    | none =>
      have hnot : (token opening.1).isPunct "::" = false :=
        isPunct_eq_false hopen (by decide)
      have hfirst : ∀ xs, skipTurbofish (.token opening.1 :: xs) = .token opening.1 :: xs := by
        intro xs
        cases xs with
        | nil => rfl
        | cons x xs => rw [skipTurbofish, if_neg (by simp [hnot])]
      change leadingAngle (skipTurbofish (.token opening.1 :: _)) = _
      rw [hfirst]
      exact hread
    | some colons =>
      change leadingAngle (skipTurbofish (.token colons.1 :: .token opening.1 :: _)) = _
      rw [skipTurbofish, if_pos ⟨isPunct_mark colons, hopen⟩]
      exact hread

theorem token?_name {t : Token} (h : t.kind = .ident) :
    (token t).token? (·.kind == .ident) = some t :=
  token?_token _ _ (by simp [h])

theorem PathSyntax.pathParts (p : PathSyntax) :
    RustType.pathParts p.trees = (p.leadingParts ++ [p.lastPart], .complete []) := by
  cases p with
  | last segment =>
    have htail := segment.leadingAngle_tail [] rfl rfl
    rw [List.append_nil] at htail
    rw [PathSyntax.trees, segment.trees_eq, pathParts_last (token?_name segment.kind_name) htail]
    rfl
  | cons segment colons rest =>
    obtain ⟨more, hmore⟩ := rest.trees_eq
    have hcolons := isPunct_mark colons
    have hname : (token rest.firstName).isPunct "<" = false :=
      isPunct_eq_false_of_kind (by rw [rest.kind_firstName]; decide) _
    have htail := segment.leadingAngle_tail (.token colons.1 :: rest.trees)
      (by rw [hmore, skipTurbofish, if_neg (by simp [hname])])
      (by rw [leadingAngle, if_neg (by simp [isPunct_eq_false hcolons])])
    rw [PathSyntax.trees, segment.trees_eq, List.cons_append,
      pathParts_cons (token?_name segment.kind_name) htail hcolons, rest.pathParts]
    rfl

/-! ### Reading back -/

theorem mapM_cons_ok {α β : Type} {f : α → Except Failure β} {a : α} {b : β} {as : List α}
    {bs : List β} (ha : f a = .ok b) (has : as.mapM f = .ok bs) :
    (a :: as).mapM f = .ok (b :: bs) := by
  rw [List.mapM_cons, ha, has]
  rfl

/-- The arguments of an angle list that is not a lifetime are types. -/
theorem plainArg?_type (t : TypeSyntax) : plainArg? t.trees = none := by
  obtain ⟨first, rest, htrees, hfirst⟩ := t.trees_eq
  have honly : onlyLifetime? t.trees = none := by
    rw [htrees]
    cases rest with
    | nil => rw [onlyLifetime?, hfirst, Option.map_none]
    | cons next more => rfl
  have hunbound : t.trees.any (·.isPunct "=") = false := by
    rw [List.any_eq_false]
    intro tree htree
    rw [t.unbound tree htree]
    exact Bool.false_ne_true
  rw [plainArg?, honly]
  simp only [hunbound, Bool.false_eq_true, if_false]

theorem PathSyntax.beginsPath (p : PathSyntax) (h : p.firstName.text ∉ opaqueWords) :
    beginsPath (.token p.firstName) = true := by
  simp [RustType.beginsPath, isToken, token?, p.kind_firstName, h]

theorem beginsPath_colons (colons : Token.Mark "::") :
    beginsPath (.token colons.1) = true := by
  rw [beginsPath, isPunct_mark colons, Bool.true_or]

mutual

theorem TypeSyntax.read_type :
    ∀ (t : TypeSyntax) (_ : t.Readable) (anchor : Option Location),
      ofTrees t.trees anchor = .ok t.type
  | .reference amp lifetime mutWord elem, h, anchor => by
    rw [TypeSyntax.Readable] at h
    obtain ⟨hmut, helem⟩ := h
    have hlifetime := leadingLifetime_maybe lifetime (maybe mutWord ++ elem.trees) (by
      cases mutWord with
      | none =>
        obtain ⟨first, rest, htrees, hfirst⟩ := elem.trees_eq
        change elem.trees.head?.bind _ = none
        rw [htrees]
        exact hfirst
      | some w => simp [maybe, token?, Token.Word.kind_eq w])
    have hword := leadingToken_maybe (p := (·.isIdent "mut"))
      (fun t ht => by rw [isIdent_token]; exact ht) mutWord elem.trees
      fun hnone => TypeSyntax.not_mut (hmut hnone)
    have hread := ofTrees_reference anchor (isPunct_mark amp)
      (by rw [hlifetime, hword]; exact elem.read_type helem _)
    rw [hlifetime, hword] at hread
    exact hread
  | .path leading segments, h, anchor => by
    rw [TypeSyntax.Readable] at h
    obtain ⟨hname, hsegments⟩ := h
    obtain ⟨rest, hrest⟩ := segments.trees_eq
    have hleading := leadingToken_maybe (p := (·.isPunct "::")) isPunct_of_token leading
      segments.trees fun _ => by
        rw [hrest]
        exact isPunct_eq_false_of_kind (by rw [segments.kind_firstName]; decide) _
    have hbegins : ∃ first more, maybe leading ++ segments.trees = first :: more ∧
        beginsPath first = true := by
      cases leading with
      | none => exact ⟨_, _, hrest, segments.beginsPath (hname rfl)⟩
      | some colons => exact ⟨_, _, rfl, beginsPath_colons colons⟩
    obtain ⟨first, more, heq, hfirst⟩ := hbegins
    have hparts : RustType.pathParts (leadingToken (·.isPunct "::") (first :: more)).2 =
        (segments.leadingParts ++ [segments.lastPart], .complete []) := by
      rw [← heq, hleading]
      exact segments.pathParts
    have hread := ofTrees_path anchor hfirst hparts (segments.mapM_segmentOf hsegments)
    rw [← heq, hleading] at hread
    exact hread
  | .tuple opener elems closer, h, anchor =>
    ofTrees_tuple anchor (elems.mapM_ofTrees h (some opener.start))
  | .brackets opener inner closer, _, anchor => ofTrees_group anchor (by decide)

theorem PathSyntax.mapM_segmentOf : ∀ (p : PathSyntax) (_ : p.Readable),
    (p.leadingParts ++ [p.lastPart]).mapM segmentOf = .ok (p.qualifiers ++ [p.final])
  | .last segment, h => mapM_cons_ok (segment.segmentOf_part h) rfl
  | .cons segment colons rest, h => by
    rw [PathSyntax.Readable] at h
    exact mapM_cons_ok (segment.segmentOf_part h.1) (rest.mapM_segmentOf h.2)

theorem SegmentSyntax.segmentOf_part : ∀ (s : SegmentSyntax) (_ : s.Readable),
    segmentOf s.part = .ok s.segment
  | .plain name, _ => rfl
  | .applied name turbofish opening args closing, h => by
    rw [segmentOf, SegmentSyntax.part, SegmentSyntax.angle, angleInner_brackets,
      args.mapM_argOf h]
    rfl

theorem ArgsSyntax.mapM_argOf :
    ∀ (args : ArgsSyntax) (_ : args.Readable) (anchor : Option Location),
      (splitCommas args.trees).mapM (argOf anchor) = .ok args.args
  | .nil, _, _ => rfl
  | .last arg, h, anchor => by
    rw [ArgsSyntax.trees, arg.whole.splitCommas_self arg.trees_ne_nil]
    exact mapM_cons_ok (arg.argOf_trees h anchor) rfl
  | .cons arg comma rest, h, anchor => by
    rw [ArgsSyntax.Readable] at h
    rw [ArgsSyntax.trees, arg.whole.splitCommas_comma (isPunct_mark comma)]
    exact mapM_cons_ok (arg.argOf_trees h.1 anchor) (rest.mapM_argOf h.2 anchor)

theorem ArgSyntax.argOf_trees :
    ∀ (arg : ArgSyntax) (_ : arg.Readable) (anchor : Option Location),
      argOf anchor arg.trees = .ok arg.arg
  | .lifetime name, _, anchor => by
    rw [argOf, ArgSyntax.trees, plainArg?, onlyLifetime?,
      token?_token _ _ (by simp [name.2])]
    rfl
  | .type t, h, anchor => by
    rw [argOf, ArgSyntax.trees, plainArg?_type, t.read_type h]
    rfl

theorem ElemsSyntax.mapM_ofTrees :
    ∀ (elems : ElemsSyntax) (_ : elems.Readable) (anchor : Option Location),
      (splitCommas elems.trees).mapM (fun chunk => ofTrees chunk anchor) = .ok elems.types
  | .nil, _, _ => rfl
  | .last elem, h, anchor => by
    rw [ElemsSyntax.trees, elem.whole.splitCommas_self elem.trees_ne_nil]
    exact mapM_cons_ok (elem.read_type h anchor) rfl
  | .cons elem comma rest, h, anchor => by
    rw [ElemsSyntax.Readable] at h
    rw [ElemsSyntax.trees, elem.whole.splitCommas_comma (isPunct_mark comma)]
    exact mapM_cons_ok (elem.read_type h.1 anchor) (rest.mapM_ofTrees h.2 anchor)

end

theorem TypeSyntax.trees_type (t : TypeSyntax) : t.type.trees = t.trees := by
  cases t <;> rfl

/-- Reading the trees of a type gives the type; it keeps the trees that it was read from, and
so does each type inside of it. -/
theorem TypeSyntax.ofTrees_trees (t : TypeSyntax) (h : t.Readable) (anchor : Option Location) :
    ofTrees t.trees anchor = .ok t.type ∧ t.type.trees = t.trees :=
  ⟨t.read_type h anchor, t.trees_type⟩

/-- A mutable reference to an absolute path with a one-element tuple and a slice as its
arguments. -/
theorem TypeSyntax.ofTrees_trees_nested :
    let token (kind : TokenKind) (text : String) : Token := ⟨kind, text, .first, .first⟩
    let name (text : String) : Token.OfKind .ident := ⟨token .ident text, rfl⟩
    let one (text : String) : TypeSyntax := .path none (.last (.plain (name text)))
    let pair : ArgsSyntax := .cons (.type (.tuple (token (.opener .paren) "(")
        (.cons (one "T") ⟨token .punct ",", rfl⟩ .nil) (token (.closer .paren) ")")))
      ⟨token .punct ",", rfl⟩ (.last (.type (.brackets (token (.opener .bracket) "[")
        (one "u8").trees (token (.closer .bracket) "]"))))
    let path : PathSyntax := .cons (.plain (name "std")) ⟨token .punct "::", rfl⟩
      (.last (.applied (name "Vec") (some ⟨token .punct "::", rfl⟩) ⟨token .punct "<", rfl⟩ pair
        ⟨token .punct ">", rfl⟩))
    let t : TypeSyntax := .reference ⟨token .punct "&", rfl⟩ (some ⟨token .lifetime "'a", rfl⟩)
      (some ⟨token .ident "mut", rfl⟩) (.path (some ⟨token .punct "::", rfl⟩) path)
    t.Readable ∧ t.trees.length = 13 ∧ ∃ elem, elem.pathName? = some "std::Vec" ∧
      ofTrees t.trees none = .ok (.reference t.trees (some "'a") true elem) := by
  intro token name one pair path t
  have hname : (one "T").Readable := ⟨fun _ => by decide, trivial⟩
  have hpath : (TypeSyntax.path (some ⟨token .punct "::", rfl⟩) path).Readable :=
    ⟨fun h => absurd h (Option.some_ne_none _), trivial, ⟨hname, trivial⟩, trivial⟩
  have hread : t.Readable := ⟨fun h => absurd h (Option.some_ne_none _), hpath⟩
  exact ⟨hread, rfl, _, rfl, (t.ofTrees_trees hread none).1⟩

end LuaBindings.RustType
