import LuaBindings.Token

/-!
# Token trees

A token tree is a token or a group: an opening delimiter, the trees inside, and
the closing delimiter. `flatten` lists the tokens of trees in their order, and
the number of those tokens is what recursion over the trees inside of other
trees goes down by.
-/

set_option autoImplicit false

namespace LuaBindings

inductive TokenTree where
  | token (t : Token)
  | group (delimiter : Delimiter) (opener : Token) (inner : List TokenTree) (closer : Token)
  deriving Repr

structure Group where
  delimiter : Delimiter
  opener : Token
  inner : List TokenTree
  closer : Token
  deriving Repr

def Group.tree (g : Group) : TokenTree := .group g.delimiter g.opener g.inner g.closer

namespace TokenTree

mutual

def tokens : TokenTree → List Token
  | token t => [t]
  | group _ opener inner closer => opener :: (flatten inner ++ [closer])

def flatten : List TokenTree → List Token
  | [] => []
  | tree :: trees => tree.tokens ++ flatten trees

end

def first : TokenTree → Token
  | token t => t
  | group _ opener _ _ => opener

def start (tree : TokenTree) : Location := tree.first.start

def group? (delimiter : Delimiter) : TokenTree → Option Group
  | token _ => none
  | group d opener inner closer =>
    if d = delimiter then some ⟨d, opener, inner, closer⟩ else none

def isGroup (delimiter : Delimiter) (tree : TokenTree) : Bool := (tree.group? delimiter).isSome

def token? (p : Token → Bool) : TokenTree → Option Token
  | token t => if p t then some t else none
  | group .. => none

def isToken (p : Token → Bool) (tree : TokenTree) : Bool := (tree.token? p).isSome

def isIdent (name : String) (tree : TokenTree) : Bool := tree.isToken (·.isIdent name)

def isPunct (text : String) (tree : TokenTree) : Bool := tree.isToken (·.isPunct text)

/-! ### Flattening -/

theorem flatten_append (xs ys : List TokenTree) : flatten (xs ++ ys) = flatten xs ++ flatten ys := by
  induction xs with
  | nil => rfl
  | cons x xs ih => simp [flatten, ih]

theorem tokens_length_pos (tree : TokenTree) : 0 < tree.tokens.length := by
  cases tree <;> simp [tokens]

def count (trees : List TokenTree) : Nat := (flatten trees).length

theorem count_append (xs ys : List TokenTree) : count (xs ++ ys) = count xs + count ys := by
  simp [count, flatten_append]

theorem count_cons (x : TokenTree) (xs : List TokenTree) :
    count (x :: xs) = x.tokens.length + count xs := by
  simp [count, flatten]

theorem count_group (d : Delimiter) (opener closer : Token) (inner xs : List TokenTree) :
    count (group d opener inner closer :: xs) = count inner + 2 + count xs := by
  simp [count, flatten, tokens]
  omega

theorem count_le_of_sublist {xs ys : List TokenTree} (h : xs.Sublist ys) : count xs ≤ count ys := by
  induction h with
  | slnil => exact Nat.le_refl _
  | cons _ _ ih =>
    rw [count_cons]
    omega
  | cons_cons _ _ ih =>
    rw [count_cons, count_cons]
    omega

theorem count_lt_cons (x : TokenTree) (xs : List TokenTree) : count xs < count (x :: xs) := by
  have := tokens_length_pos x
  rw [count_cons]
  omega

end TokenTree
end LuaBindings
