import LuaBindings.Diagnostic
import LuaBindings.TokenTree.Commas

/-!
# Reading trees one after the other

A cursor stands between the trees of a list. A reader takes trees from the cursor
and gives a value, or fails and leaves the cursor where it stood when it failed. A
failure is placed at the next tree; at the end of the list it is placed at the last
tree, and in an empty list at the anchor that the list was given.
-/

set_option autoImplicit false

namespace LuaBindings

structure Cursor where
  /-- The trees before the cursor, last first. -/
  past : List TokenTree
  rest : List TokenTree
  /-- The place of a failure in an empty list. -/
  anchor : Option Location
  deriving Repr

/-- The place of what comes next in a list, or the given place at its end. -/
def TokenTree.placeOr (fallback : Option Location) (trees : List TokenTree) : Option Location :=
  (trees.head?.map TokenTree.start).or fallback

/-- The place of the last tree of a list, or the anchor of an empty one. -/
def TokenTree.endPlace (anchor : Option Location) (trees : List TokenTree) : Option Location :=
  (trees.getLast?.map TokenTree.start).or anchor

namespace Cursor

def ofTrees (trees : List TokenTree) (anchor : Option Location) : Cursor := ⟨[], trees, anchor⟩

def position (c : Cursor) : Nat := c.past.length

def trees (c : Cursor) : List TokenTree := c.past.reverse ++ c.rest

def atEnd (c : Cursor) : Bool := c.rest.isEmpty

def peek (c : Cursor) (offset : Nat) : Option TokenTree := c.rest[offset]?

/-- The tree at an offset to either side, if there is one. An offset that goes back
beyond the first tree goes on from the last, but not round the list again: then there
is no answer. -/
def look (c : Cursor) (offset : Int) : Option (Option TokenTree) :=
  match (c.position : Int) + offset with
  | .ofNat index => some c.trees[index]?
  | .negSucc index =>
    if index < c.trees.length then some c.trees.reverse[index]? else none

def skip (c : Cursor) (n : Nat) : Cursor :=
  ⟨(c.rest.take n).reverse ++ c.past, c.rest.drop n, c.anchor⟩

/-- Whether the tree after the next `offset` trees is there and satisfies `p`. -/
def sees (c : Cursor) (p : TokenTree → Bool) (offset : Nat) : Bool := (c.peek offset).any p

/-- The place of the next tree, or else of the last one, or else the anchor. -/
def place (c : Cursor) : Option Location :=
  TokenTree.placeOr (TokenTree.placeOr c.anchor c.past) c.rest

def failure (c : Cursor) (cause : Cause) : Failure := .single (.atPlace? c.place cause)

theorem trees_skip (c : Cursor) (n : Nat) : (c.skip n).trees = c.trees := by
  simp [skip, trees]

end Cursor

/-- A reader of trees. After a failure the cursor stays where the failure was. -/
abbrev Reader := EStateM Failure Cursor

namespace Reader

def fail {α : Type} (cause : Cause) : Reader α := fun c => .error (c.failure cause) c

def sees (p : TokenTree → Bool) : Reader Bool := fun c => .ok (c.sees p 0) c

def next : Reader TokenTree := fun c =>
  match c.rest with
  | [] => .error (c.failure .endOfInput) c
  | tree :: _ => .ok tree (c.skip 1)

def rest : Reader (List TokenTree) := fun c => .ok c.rest (c.skip c.rest.length)

/-- The trees before the first that satisfies `p`, or all that are left. -/
def takeUntil (p : TokenTree → Bool) : Reader (List TokenTree) := fun c =>
  let taken := c.rest.takeWhile fun tree => !p tree
  .ok taken (c.skip taken.length)

/-- Takes the next tree if it is a token with the given property. -/
def eat (p : Token → Bool) : Reader (Option Token) := fun c =>
  match (c.peek 0).bind (TokenTree.token? p) with
  | none => .ok none c
  | some t => .ok (some t) (c.skip 1)

def eatPunct (text : String) : Reader (Option Token) := eat (·.isPunct text)

def eatIdent (name : Option String) : Reader (Option Token) :=
  match name with
  | none => eat (·.kind == .ident)
  | some name => eat (·.isIdent name)

/-- Takes the named identifier and tells whether it was there. -/
def eatWord (name : String) : Reader Bool := do
  return (← eatIdent (some name)).isSome

def expectPunct (text : String) : Reader Token := do
  match ← eatPunct text with
  | some t => return t
  | none => fail (.expected text)

/-- The cause of a missing identifier. An empty name is no name to speak of. -/
def missingIdent : Option String → Cause
  | none => .expectedIdentifier
  | some name => if name.isEmpty then .expectedIdentifier else .expected name

def expectIdent (name : Option String) : Reader Token := do
  match ← eatIdent name with
  | some t => return t
  | none => fail (missingIdent name)

def expectGroup (delimiter : Delimiter) : Reader Group := fun c =>
  match (c.peek 0).bind (TokenTree.group? delimiter) with
  | none => .error (c.failure (.expected delimiter.openText)) c
  | some g => .ok g (c.skip 1)

/-- Takes an angle list with both of its brackets. If it does not close, everything
is taken before the failure. -/
def angleList : Reader (List TokenTree) := do
  let opening ← expectPunct "<"
  let c ← get
  match TokenTree.throughAngle 1 c.rest with
  | some (inner, _) =>
    set (c.skip inner.length)
    return .token opening :: inner
  | none =>
    set (c.skip c.rest.length)
    fail .endOfInput

def optionalAngleList : Reader (List TokenTree) := do
  if ← sees (·.isPunct "<") then angleList else return []

def ofExcept {α : Type} (result : Except Failure α) : Reader α := fun c =>
  match result with
  | .ok a => .ok a c
  | .error f => .error f c

end Reader
end LuaBindings
