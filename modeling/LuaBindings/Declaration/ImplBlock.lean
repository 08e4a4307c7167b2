import LuaBindings.Declaration.Method

/-!
# Reading impl blocks

The items of a block are read one after the other. An item that fails is stepped
over up to its end, and reading goes on behind it, so every item that fails is
reported. A block with a failed item fails as a whole.
-/

set_option autoImplicit false

namespace LuaBindings

/-- An item of an impl block: a method, or the trees of something else. -/
inductive ImplItem where
  | method (m : Method)
  | other (trees : List TokenTree)
  deriving Repr

structure ImplItems where
  methods : List Method
  others : List (List TokenTree)
  failures : List Failure

namespace ImplItem

/-- The trees of an item that is no method: up to a semicolon, or up to the braces of
a macro call that no semicolon follows. -/
def otherTrees : Bool → List TokenTree → List TokenTree
  | _, [] => []
  | afterBang, tree :: rest =>
    if tree.isPunct ";" then [tree]
    else if tree.isGroup .brace ∧ afterBang ∧ !rest.head?.any (·.isPunct ";") then [tree]
    else tree :: otherTrees (tree.isPunct "!") rest

/-- The trees up to the end of an item that could not be read. -/
def throughEnd (trees : List TokenTree) : List TokenTree :=
  match trees.dropWhile fun tree => !(tree.isGroup .brace || tree.isPunct ";") with
  | [] => []
  | _ :: rest => rest

/-- The trees after an item of the given length; an item has at least one tree. -/
def after (length : Nat) (trees : List TokenTree) : List TokenTree := trees.drop (max 1 length)

def visibility : Reader Unit := do
  if ← Reader.eatWord "pub" then
    if ← Reader.sees (·.isGroup .paren) then
      let _ ← Reader.next

def reader (trees : List TokenTree) : Reader ImplItem := do
  let attributes ← Reader.attributes
  visibility
  let c ← get
  if Method.isAhead false c.rest then return .method (← Method.reader attributes)
  else
    let others := otherTrees false c.rest
    set (c.skip others.length)
    return .other (trees.take (c.position + others.length))

theorem after_length_lt (length : Nat) (tree : TokenTree) (rest : List TokenTree) :
    (after length (tree :: rest)).length < (tree :: rest).length := by
  simp only [after, List.length_drop, List.length_cons]
  omega

theorem throughEnd_suffix (trees : List TokenTree) : throughEnd trees <:+ trees := by
  unfold throughEnd
  split
  · exact List.nil_suffix
  · rename_i tree rest heq
    have hsuffix := List.dropWhile_suffix (l := trees)
      fun tree => !(tree.isGroup .brace || tree.isPunct ";")
    rw [heq] at hsuffix
    exact (List.suffix_cons _ _).trans hsuffix

end ImplItem

namespace ImplItems

def add (item : ImplItem) (items : ImplItems) : ImplItems :=
  match item with
  | .method m => { items with methods := m :: items.methods }
  | .other trees => { items with others := trees :: items.others }

def ofTrees (trees : List TokenTree) : ImplItems :=
  match trees with
  | [] => ⟨[], [], []⟩
  | tree :: rest =>
    match ImplItem.reader (tree :: rest) (Cursor.ofTrees (tree :: rest) none) with
    | .ok item c =>
      have := ImplItem.after_length_lt c.position tree rest
      (ofTrees (ImplItem.after c.position (tree :: rest))).add item
    | .error f c =>
      have := ImplItem.after_length_lt c.position tree rest
      have := (ImplItem.throughEnd_suffix (ImplItem.after c.position (tree :: rest))).length_le
      let items := ofTrees (ImplItem.throughEnd (ImplItem.after c.position (tree :: rest)))
      { items with failures := f :: items.failures }
termination_by trees.length
decreasing_by
  · assumption
  · exact Nat.lt_of_le_of_lt (by assumption) (by assumption)

/-- The methods and the other items of a body, or all that failed in it. -/
def ofBody (body : Group) : Except Failure (List Method × List (List TokenTree)) :=
  let items := ofTrees body.inner
  Failure.refuse items.failures (items.methods, items.others)

end ImplItems

namespace ImplBlock

/-- The trees of the type that a block is for: those after `for`, if it is there. -/
def selfTrees (header : List TokenTree) : List TokenTree :=
  match header.dropWhile fun tree => !tree.isIdent "for" with
  | [] => header
  | _ :: rest => rest

def endsHead (tree : TokenTree) : Bool := tree.isGroup .brace || tree.isIdent "where"

def reader (start : Location) (marker : Attribute) (attributes : List Attribute) :
    Reader ImplBlock := do
  let _ ← Reader.eatWord "unsafe"
  if !(← Reader.eatWord "impl") then
    throw (Failure.atPlace marker.place (.notAnImpl marker.name))
  let generics ← Reader.optionalAngleList
  let header ← Reader.takeUntil endsHead
  let selfType ← Reader.ofExcept (RustType.ofTrees (selfTrees header) (some start))
  let whereClause ← Reader.takeUntil (·.isGroup .brace)
  let body ← Reader.expectGroup .brace
  let (methods, others) ← Reader.ofExcept (ImplItems.ofBody body)
  return {
    selfType := selfType
    generics := generics
    whereClause := whereClause
    markerArgs := marker.args
    attributes := attributes
    methods := methods
    otherItems := others
    start := start
    stop := body.closer.stop }

end ImplBlock
end LuaBindings
