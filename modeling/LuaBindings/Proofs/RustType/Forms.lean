import LuaBindings.Proofs.Cursor
import LuaBindings.Proofs.TokenTree.Angles
import LuaBindings.RustType.Reading

/-!
# The forms of types

What becomes of trees that begin like a reference, are one group, or begin like a
path. A path is given by its parts; each part that is read is a segment.
-/

set_option autoImplicit false

namespace LuaBindings.RustType

open TokenTree

/-! ### The parts of a path -/

/-- The last part of a path takes the trees up to the end. -/
theorem pathParts_last {tree : TokenTree} {name : Token} {rest angle : List TokenTree}
    (hname : tree.token? (·.kind == .ident) = some name)
    (hangle : leadingAngle (skipTurbofish rest) = some (angle, [])) :
    pathParts (tree :: rest) = ([⟨name.text, angle⟩], .complete []) := by
  rw [pathParts, hname]
  dsimp only
  split
  · simp_all
  · simp_all
  · simp_all

/-- A part with a double colon behind it is followed by another. -/
theorem pathParts_cons {tree colons : TokenTree} {name : Token} {rest angle rest' : List TokenTree}
    (hname : tree.token? (·.kind == .ident) = some name)
    (hangle : leadingAngle (skipTurbofish rest) = some (angle, colons :: rest'))
    (hcolons : colons.isPunct "::" = true) :
    pathParts (tree :: rest) =
      (⟨name.text, angle⟩ :: (pathParts rest').1, (pathParts rest').2) := by
  rw [pathParts, hname]
  dsimp only
  split
  · simp_all
  · simp_all
  · rename_i angle' next rest'' heq
    rw [hangle] at heq
    cases heq
    rw [if_pos hcolons]

/-! ### Arguments and segments -/

/-- The generic argument that a chunk of an angle list spells. -/
def argOf (anchor : Option Location) (chunk : List TokenTree) : Except Failure TypeArg :=
  match plainArg? chunk with
  | some arg => .ok arg
  | none => (ofTrees chunk anchor).map TypeArg.type

def segmentOf (part : PathPart) : Except Failure PathSegment :=
  ((splitCommas (angleInner part.angle)).mapM (argOf (part.angle.head?.map start))).map
    (PathSegment.mk part.name)

/-! ### Types -/

/-- What becomes of the segments of a path, by the way that its parts end. -/
def ofSegments (trees : List TokenTree) (leadingColon : Bool) (ending : PathEnd)
    (segments : List PathSegment) : Except Failure RustType :=
  match ending with
  | .openAngle => .error (.single (.atPlace? (endPlace none trees) .endOfInput))
  | .complete [] =>
    match segments.getLast? with
    | some last => .ok (.path trees leadingColon segments.dropLast last)
    | none => .ok (.other trees)
  | _ => .ok (.other trees)

/-- The parts of the path that the trees may begin, and how they end. -/
def shapeOf (trees : List TokenTree) : List PathPart × PathEnd :=
  pathParts (leadingToken (·.isPunct "::") trees).2

variable (anchor : Option Location)

/-- How trees are read, by how they begin. -/
theorem ofTrees_cons (first : TokenTree) (rest : List TokenTree) :
    ofTrees (first :: rest) anchor =
      if first.isPunct "&" then
        (ofTrees (leadingToken (·.isIdent "mut") (leadingLifetime rest).2).2 first.start).map
          (.reference (first :: rest) (leadingLifetime rest).1
            (leadingToken (·.isIdent "mut") (leadingLifetime rest).2).1)
      else
        match onlyParen? (first :: rest) with
        | some g =>
          ((splitCommas g.inner).mapM fun chunk => ofTrees chunk first.start).map
            (.tuple (first :: rest))
        | none =>
          if beginsPath first then
            ((shapeOf (first :: rest)).1.mapM segmentOf).bind
              (ofSegments (first :: rest) (leadingToken (·.isPunct "::") (first :: rest)).1
                (shapeOf (first :: rest)).2)
          else .ok (.other (first :: rest)) := by
  rw [ofTrees]
  split
  · dsimp only
    cases ofTrees (leadingToken (·.isIdent "mut") (leadingLifetime rest).2).2 first.start <;> rfl
  · split
    · rename_i g hparen
      rw [List.mapM_subtype (g := fun chunk => ofTrees chunk first.start) fun _ _ => rfl,
        List.unattach_attach]
      simp only [hparen]
    · rename_i hparen
      simp only [hparen]
      split
      · rw [List.mapM_subtype (g := segmentOf), List.unattach_attach, shapeOf]
        · generalize (pathParts (leadingToken (·.isPunct "::") (first :: rest)).2).2 = ending
          cases (pathParts (leadingToken (·.isPunct "::") (first :: rest)).2).1.mapM segmentOf with
          | error f => rfl
          | ok segments =>
            cases ending with
            | complete rest => cases rest <;> rfl
            | noName => rfl
            | openAngle => rfl
        · intro part hpart
          rw [List.mapM_subtype (g := argOf (part.angle.head?.map start)), List.unattach_attach]
          · rfl
          · intro chunk hchunk
            rfl
      · rfl

theorem ofTrees_reference {first : TokenTree} {rest : List TokenTree} {elem : RustType}
    (hamp : first.isPunct "&" = true)
    (helem : ofTrees (leadingToken (·.isIdent "mut") (leadingLifetime rest).2).2 first.start =
      .ok elem) :
    ofTrees (first :: rest) anchor =
      .ok (.reference (first :: rest) (leadingLifetime rest).1
        (leadingToken (·.isIdent "mut") (leadingLifetime rest).2).1 elem) := by
  rw [ofTrees_cons, if_pos hamp, helem]
  rfl

theorem ofTrees_tuple {opener closer : Token} {inner : List TokenTree} {elems : List RustType}
    (helems : (splitCommas inner).mapM (fun chunk => ofTrees chunk (some opener.start)) =
      .ok elems) :
    ofTrees [.group .paren opener inner closer] anchor =
      .ok (.tuple [.group .paren opener inner closer] elems) := by
  rw [ofTrees_cons, if_neg (by simp [isPunct, isToken, token?])]
  exact congrArg (Except.map (tuple _)) helems

theorem ofTrees_group {opener closer : Token} {d : Delimiter} {inner : List TokenTree}
    (hd : d ≠ .paren) :
    ofTrees [.group d opener inner closer] anchor =
      .ok (.other [.group d opener inner closer]) := by
  rw [ofTrees_cons, if_neg (by simp [isPunct, isToken, token?]), onlyParen?, group?, if_neg hd]
  rfl

/-- A path begins with a token, and that is not the mark of a reference. -/
theorem token_of_beginsPath {tree : TokenTree} (h : beginsPath tree = true) :
    ∃ t, tree = .token t ∧ tree.isPunct "&" = false := by
  cases tree with
  | group d opener inner closer => simp [beginsPath, isPunct, isToken, token?] at h
  | token t =>
    refine ⟨t, rfl, ?_⟩
    rw [beginsPath, Bool.or_eq_true] at h
    rcases h with hcolons | hname
    · exact isPunct_eq_false hcolons (by decide)
    · have hkind : t.kind = .ident := by
        simp only [isToken, token?] at hname
        split at hname <;> simp_all
      simp [isPunct, isToken, token?, Token.isPunct, hkind]

theorem onlyParen?_token (t : Token) (rest : List TokenTree) :
    onlyParen? (.token t :: rest) = none := by
  cases rest <;> rfl

theorem eq_of_onlyParen {trees : List TokenTree} {g : Group} (h : onlyParen? trees = some g) :
    trees = [g.tree] := by
  rcases trees with _ | ⟨tree, _ | ⟨next, rest⟩⟩
  · cases h
  · obtain ⟨-, rfl⟩ := group?_eq_some h
    rfl
  · cases h

theorem ofTrees_path {first : TokenTree} {rest : List TokenTree} {parts : List PathPart}
    {qualifiers : List PathSegment} {last : PathSegment} (hbegins : beginsPath first = true)
    (hparts : pathParts (leadingToken (·.isPunct "::") (first :: rest)).2 =
      (parts, .complete []))
    (hsegments : parts.mapM segmentOf = .ok (qualifiers ++ [last])) :
    ofTrees (first :: rest) anchor =
      .ok (.path (first :: rest) (leadingToken (·.isPunct "::") (first :: rest)).1 qualifiers
        last) := by
  obtain ⟨t, rfl, hamp⟩ := token_of_beginsPath hbegins
  rw [ofTrees_cons, if_neg (by rw [hamp]; exact Bool.false_ne_true), onlyParen?_token]
  dsimp only
  rw [if_pos hbegins, shapeOf, hparts, hsegments, Except.bind, ofSegments, List.getLast?_concat,
    List.dropLast_concat]

end LuaBindings.RustType
