import LuaBindings.Cursor
import LuaBindings.RustType

/-!
# Reading types

A type takes all of the trees it is read from. A path that does not take them all,
or that lacks a name, is no path, and the trees are kept as they are; but its
angle lists have been read by then, and what fails in one of them fails the type.
-/

set_option autoImplicit false

namespace LuaBindings.RustType

def opaqueWords : List String := ["dyn", "impl", "fn", "unsafe", "extern", "for", "_"]

/-! ### The shape of a path -/

/-- A name and its angle list, which is empty if there is none. -/
structure PathPart where
  name : String
  angle : List TokenTree

/-- How a run of path parts ends: before some trees, where a name is missing, or in
an angle list that does not close. -/
inductive PathEnd where
  | complete (rest : List TokenTree)
  | noName
  | openAngle

def skipTurbofish : List TokenTree → List TokenTree
  | colons :: tree :: rest =>
    if colons.isPunct "::" ∧ tree.isPunct "<" then tree :: rest else colons :: tree :: rest
  | trees => trees

/-- An angle list, if one begins here, and the trees after it; `none` if it does
not close. -/
def leadingAngle : List TokenTree → Option (List TokenTree × List TokenTree)
  | [] => some ([], [])
  | tree :: rest =>
    if tree.isPunct "<" then
      (TokenTree.throughAngle 1 rest).map fun split => (tree :: split.1, split.2)
    else some ([], tree :: rest)

theorem skipTurbofish_suffix (trees : List TokenTree) : skipTurbofish trees <:+ trees := by
  unfold skipTurbofish
  split
  · split
    · exact List.suffix_cons _ _
    · exact List.suffix_refl _
  · exact List.suffix_refl _

theorem leadingAngle_append {trees angle rest : List TokenTree}
    (h : leadingAngle trees = some (angle, rest)) : angle ++ rest = trees := by
  unfold leadingAngle at h
  split at h
  · simp_all
  · split at h
    · obtain ⟨split, hsplit, heq⟩ := Option.map_eq_some_iff.1 h
      simp only [Prod.mk.injEq] at heq
      rw [← heq.1, ← heq.2, List.cons_append, TokenTree.throughAngle_append hsplit]
    · simp only [Option.some.injEq, Prod.mk.injEq] at h
      simp [← h.1, ← h.2]

def pathParts (trees : List TokenTree) : List PathPart × PathEnd :=
  match trees with
  | [] => ([], .noName)
  | tree :: rest =>
    match tree.token? (·.kind == .ident) with
    | none => ([], .noName)
    | some name =>
      match h : leadingAngle (skipTurbofish rest) with
      | none => ([], .openAngle)
      | some (angle, []) => ([⟨name.text, angle⟩], .complete [])
      | some (angle, next :: rest') =>
        if next.isPunct "::" then
          have : rest'.length < rest.length := by
            have hlen := congrArg List.length (leadingAngle_append h)
            have hle := (skipTurbofish_suffix rest).length_le
            simp only [List.length_append, List.length_cons] at hlen
            omega
          let (parts, ending) := pathParts rest'
          (⟨name.text, angle⟩ :: parts, ending)
        else ([⟨name.text, angle⟩], .complete (next :: rest'))
termination_by trees.length
decreasing_by
  simp only [List.length_cons]
  omega

theorem angle_sublist_of_mem_pathParts (trees : List TokenTree) :
    ∀ part ∈ (pathParts trees).1, part.angle.Sublist trees := by
  fun_induction pathParts trees with
  | case1 | case2 | case3 => simp
  | case4 tree rest _ _ angle h =>
    have happ := leadingAngle_append h
    intro part hpart
    simp only [List.mem_singleton] at hpart
    subst hpart
    rw [List.append_nil] at happ
    subst happ
    exact (skipTurbofish_suffix rest).sublist.cons _
  | case5 tree rest _ _ angle next rest' h _ _ parts ending heq ih =>
    have happ := leadingAngle_append h
    have hsub := (skipTurbofish_suffix rest).sublist
    rw [← happ] at hsub
    intro part hpart
    simp only [List.mem_cons] at hpart
    rcases hpart with rfl | hpart
    · exact ((List.sublist_append_left _ _).trans hsub).cons _
    · rw [heq] at ih
      exact (((ih _ hpart).cons _).trans ((List.sublist_append_right _ _).trans hsub)).cons _
  | case6 tree rest _ _ angle next rest' h _ =>
    have happ := leadingAngle_append h
    have hsub := (skipTurbofish_suffix rest).sublist
    rw [← happ] at hsub
    intro part hpart
    simp only [List.mem_singleton] at hpart
    subst hpart
    exact ((List.sublist_append_left _ _).trans hsub).cons _

/-! ### Types -/

def leadingLifetime (trees : List TokenTree) : Option String × List TokenTree :=
  match trees.head?.bind (TokenTree.token? (·.kind == .lifetime)) with
  | some t => (some t.text, trees.drop 1)
  | none => (none, trees)

def leadingToken (p : TokenTree → Bool) (trees : List TokenTree) : Bool × List TokenTree :=
  if trees.head?.any p then (true, trees.drop 1) else (false, trees)

theorem leadingLifetime_sublist (trees : List TokenTree) :
    (leadingLifetime trees).2.Sublist trees := by
  unfold leadingLifetime
  split
  · exact List.drop_sublist _ _
  · exact List.Sublist.refl _

theorem leadingToken_sublist (p : TokenTree → Bool) (trees : List TokenTree) :
    (leadingToken p trees).2.Sublist trees := by
  unfold leadingToken
  split
  · exact List.drop_sublist _ _
  · exact List.Sublist.refl _

def onlyParen? : List TokenTree → Option Group
  | [tree] => tree.group? .paren
  | _ => none

def beginsPath (tree : TokenTree) : Bool :=
  tree.isPunct "::" ||
    tree.isToken fun t => t.kind == .ident && !opaqueWords.contains t.text

def onlyLifetime? : List TokenTree → Option String
  | [tree] => (tree.token? (·.kind == .lifetime)).map Token.text
  | _ => none

/-- A generic argument that is not a type on its own: a lifetime, or one that binds
an associated type. -/
def plainArg? (chunk : List TokenTree) : Option TypeArg :=
  match onlyLifetime? chunk with
  | some name => some (.lifetime name)
  | none => if chunk.any (·.isPunct "=") then some (.type (.other chunk)) else none

theorem count_onlyParen {trees : List TokenTree} {g : Group} (h : onlyParen? trees = some g) :
    TokenTree.count g.inner < TokenTree.count trees := by
  match trees, h with
  | [.group d opener inner closer], h =>
    simp only [onlyParen?, TokenTree.group?] at h
    split at h
    · cases h
      rw [TokenTree.count_group]
      change TokenTree.count inner < TokenTree.count inner + 2 + _
      omega
    · cases h
  | [.token _], h => cases h

/-- The type that the trees spell. An empty list is refused at the anchor. -/
def ofTrees (trees : List TokenTree) (anchor : Option Location) : Except Failure RustType :=
  match trees with
  | [] => .error (.single (.atPlace? anchor .expectedType))
  | first :: rest =>
    if first.isPunct "&" then
      let lifetime := leadingLifetime rest
      let mutWord := leadingToken (·.isIdent "mut") lifetime.2
      have : TokenTree.count mutWord.2 < TokenTree.count (first :: rest) :=
        Nat.lt_of_le_of_lt
          (TokenTree.count_le_of_sublist
            ((leadingToken_sublist _ _).trans (leadingLifetime_sublist _)))
          (TokenTree.count_lt_cons _ _)
      match ofTrees mutWord.2 (some first.start) with
      | .error f => .error f
      | .ok elem => .ok (.reference (first :: rest) lifetime.1 mutWord.1 elem)
    else
      match hparen : onlyParen? (first :: rest) with
      | some g =>
        let elems : Except Failure (List RustType) :=
          (TokenTree.splitCommas g.inner).attach.mapM
            fun (chunk : { c // c ∈ TokenTree.splitCommas g.inner }) =>
            have : TokenTree.count chunk.1 < TokenTree.count (first :: rest) :=
              Nat.lt_of_le_of_lt (TokenTree.count_le_of_mem_splitCommas chunk.2)
                (count_onlyParen hparen)
            ofTrees chunk.1 (some first.start)
        elems.map (.tuple (first :: rest))
      | none =>
        if beginsPath first then
          let leading := leadingToken (·.isPunct "::") (first :: rest)
          let shape := pathParts leading.2
          let segments : Except Failure (List PathSegment) := shape.1.attach.mapM
            fun (part : { p // p ∈ shape.1 }) =>
            let chunks := TokenTree.splitCommas (TokenTree.angleInner part.1.angle)
            let args : Except Failure (List TypeArg) := chunks.attach.mapM
              fun (chunk : { c // c ∈ chunks }) =>
                match plainArg? chunk.1 with
                | some arg => .ok arg
                | none =>
                  have : TokenTree.count chunk.1 < TokenTree.count (first :: rest) :=
                    Nat.lt_of_lt_of_le (TokenTree.count_lt_of_mem_angle chunk.2)
                      (TokenTree.count_le_of_sublist
                        ((angle_sublist_of_mem_pathParts _ _ part.2).trans
                          (leadingToken_sublist _ _)))
                  (ofTrees chunk.1 (part.1.angle.head?.map TokenTree.start)).map TypeArg.type
            args.map (PathSegment.mk part.1.name)
          match segments, shape.2 with
          | .error f, _ => .error f
          | .ok _, .openAngle =>
            .error (.single (.atPlace? (TokenTree.endPlace none (first :: rest)) .endOfInput))
          | .ok segments, .complete [] =>
            match segments.getLast? with
            | some last => .ok (.path (first :: rest) leading.1 segments.dropLast last)
            | none => .ok (.other (first :: rest))
          | .ok _, _ => .ok (.other (first :: rest))
        else .ok (.other (first :: rest))
termination_by TokenTree.count trees

end LuaBindings.RustType
