import LuaBindings.Cursor
import LuaBindings.TokenTree.Layout

/-!
# Option entries

The arguments of an option attribute are entries between commas: a key alone, a key
with a value behind a colon or an equals sign, or a key with more entries in
parentheses. A comma after the last entry is allowed. A value is an identifier, a
path, a literal, or a number behind a minus sign.
-/

set_option autoImplicit false

namespace LuaBindings

inductive OptionValueKind where
  | ident
  | path
  | literal
  deriving DecidableEq, Repr

structure OptionValue where
  kind : OptionValueKind
  tokens : List Token
  deriving DecidableEq, Repr

def OptionValue.text (v : OptionValue) : String := String.join (v.tokens.map Token.text)

inductive OptionEntry where
  | bare (name : Token)
  | single (name separator : Token) (value : OptionValue)
  | list (name opener : Token) (entries : List OptionEntry)
  deriving Repr

namespace OptionEntry

def name : OptionEntry → Token
  | bare name | single name .. | list name .. => name

def key (e : OptionEntry) : String := e.name.text

/-- The token that begins what the key is given, if it is given anything. -/
def anchor? : OptionEntry → Option Token
  | bare _ => none
  | single _ separator _ => some separator
  | list _ opener _ => some opener

/-! ### Reading -/

/-- Fails at the next tree, or at the given place if there is none. -/
def refuse {α : Type} (fallback : Option Location) (trees : List TokenTree) (cause : Cause) :
    Except Failure α :=
  .error (.single (.atPlace? (TokenTree.placeOr fallback trees) cause))

/-- The segments of a path behind its first, each with its double colon, and the
trees after them. -/
def pathTail (fallback : Option Location) (trees : List TokenTree) :
    Except Failure (List Token × List TokenTree) :=
  match trees with
  | [] => .ok ([], [])
  | tree :: rest =>
    match tree.token? (·.isPunct "::") with
    | none => .ok ([], tree :: rest)
    | some colons =>
      match rest with
      | [] => refuse fallback [] .expectedIdentifier
      | tree :: rest =>
        match tree.token? (·.kind == .ident) with
        | none => refuse fallback (tree :: rest) .expectedIdentifier
        | some segment =>
          match pathTail fallback rest with
          | .error f => .error f
          | .ok (segments, after) => .ok (colons :: segment :: segments, after)

def isLiteral (t : Token) : Bool :=
  t.kind.isString || t.kind == .number || t.kind == .char

def readValue (fallback : Option Location) (trees : List TokenTree) :
    Except Failure (OptionValue × List TokenTree) :=
  match trees with
  | .token t :: rest =>
    if t.kind = .ident then
      match pathTail fallback rest with
      | .error f => .error f
      | .ok ([], after) => .ok (⟨.ident, [t]⟩, after)
      | .ok (segments, after) => .ok (⟨.path, t :: segments⟩, after)
    else if isLiteral t then .ok (⟨.literal, [t]⟩, rest)
    else
      match (rest.head?.bind (TokenTree.token? (·.kind == .number))) with
      | some number =>
        if t.isPunct "-" then .ok (⟨.literal, [t, number]⟩, rest.drop 1)
        else refuse fallback trees .expectedOptionValue
      | none => refuse fallback trees .expectedOptionValue
  | _ => refuse fallback trees .expectedOptionValue

theorem pathTail_suffix {fallback : Option Location} {trees after : List TokenTree}
    {segments : List Token} (h : pathTail fallback trees = .ok (segments, after)) :
    after <:+ trees := by
  fun_induction pathTail fallback trees generalizing segments with
  | case1 =>
    cases h
    exact List.suffix_refl _
  | case2 =>
    cases h
    exact List.suffix_refl _
  | case3 => cases h
  | case4 => cases h
  | case5 => cases h
  | case6 tree _ _ segment rest _ _ _ _ heq ih =>
    cases h
    exact (ih heq).trans ((List.suffix_cons _ _).trans (List.suffix_cons _ _))

theorem readValue_suffix {fallback : Option Location} {trees after : List TokenTree}
    {value : OptionValue} (h : readValue fallback trees = .ok (value, after)) :
    after <:+ trees := by
  unfold readValue at h
  split at h
  · rename_i t rest
    split at h
    · split at h
      · cases h
      · rename_i heq
        cases h
        exact (pathTail_suffix heq).trans (List.suffix_cons _ _)
      · rename_i heq
        cases h
        exact (pathTail_suffix heq).trans (List.suffix_cons _ _)
    · split at h
      · cases h
        exact List.suffix_cons _ _
      · split at h
        · split at h
          · cases h
            exact (List.drop_suffix _ _).trans (List.suffix_cons _ _)
          · cases h
        · cases h
  · cases h

inductive Given where
  | nothing (after : List TokenTree)
  | single (separator : Token) (value : OptionValue) (after : List TokenTree)
  | list (g : Group) (after : List TokenTree)

/-- Looks behind a key. The entries of a list are not read yet. -/
def readGiven (fallback : Option Location) (trees : List TokenTree) : Except Failure Given :=
  match trees with
  | [] => .ok (.nothing [])
  | tree :: rest =>
    match tree.token? (fun t => t.isPunct ":" || t.isPunct "="), tree.group? .paren with
    | some separator, _ =>
      match readValue fallback rest with
      | .error f => .error f
      | .ok (value, after) => .ok (.single separator value after)
    | none, some g => .ok (.list g rest)
    | none, none => .ok (.nothing (tree :: rest))

def Given.count : Given → Nat
  | .nothing after => TokenTree.count after
  | .single _ _ after => TokenTree.count after
  | .list g after => TokenTree.count g.inner + TokenTree.count after

theorem count_readGiven {fallback : Option Location} {trees : List TokenTree} {given : Given}
    (h : readGiven fallback trees = .ok given) : given.count ≤ TokenTree.count trees := by
  unfold readGiven at h
  split at h
  · cases h
    exact Nat.le_refl _
  · rename_i tree rest
    split at h
    · split at h
      · cases h
      · rename_i heq
        cases h
        exact TokenTree.count_le_of_sublist
          ((readValue_suffix heq).sublist.trans (List.sublist_cons_self _ _))
    · rename_i g _ hg
      cases h
      match tree, hg with
      | .group d opener inner closer, hg =>
        simp only [TokenTree.group?] at hg
        split at hg
        · cases hg
          rw [TokenTree.count_group]
          change TokenTree.count inner + TokenTree.count rest ≤ _
          omega
        · cases hg
      | .token _, hg => cases hg
    · cases h
      exact Nat.le_refl _

/-- The trees after a comma; nothing if there are none at all. -/
def afterComma (trees : List TokenTree) : Except Failure (List TokenTree) :=
  match trees with
  | [] => .ok []
  | tree :: rest =>
    if tree.isPunct "," then .ok rest else refuse none (tree :: rest) (.expected ",")

theorem afterComma_suffix {trees after : List TokenTree} (h : afterComma trees = .ok after) :
    after <:+ trees := by
  unfold afterComma at h
  split at h
  · cases h
    exact List.suffix_refl _
  · split at h
    · cases h
      exact List.suffix_cons _ _
    · cases h

def readFrom (fallback : Option Location) (trees : List TokenTree) :
    Except Failure (List OptionEntry) :=
  match trees with
  | [] => .ok []
  | tree :: rest =>
    match tree.token? (·.kind == .ident) with
    | none => refuse fallback (tree :: rest) .expectedOptionName
    | some name =>
      match hgiven : readGiven fallback rest with
      | .error f => .error f
      | .ok given =>
        have hcount : given.count < TokenTree.count (tree :: rest) :=
          Nat.lt_of_le_of_lt (count_readGiven hgiven) (TokenTree.count_lt_cons _ _)
        let entry : Except Failure (OptionEntry × { after // TokenTree.count after ≤ given.count }) :=
          match given with
          | .nothing after => .ok (bare name, ⟨after, Nat.le_refl _⟩)
          | .single separator value after => .ok (single name separator value, ⟨after, Nat.le_refl _⟩)
          | .list g after =>
            have : TokenTree.count g.inner < TokenTree.count (tree :: rest) :=
              Nat.lt_of_le_of_lt (Nat.le_add_right _ _) hcount
            match readFrom (TokenTree.endPlace (some g.opener.start) g.inner) g.inner with
            | .error f => .error f
            | .ok entries => .ok (list name g.opener entries, ⟨after, Nat.le_add_left _ _⟩)
        match entry with
        | .error f => .error f
        | .ok (entry, after) =>
          match hcomma : afterComma after.1 with
          | .error f => .error f
          | .ok more =>
            have : TokenTree.count more < TokenTree.count (tree :: rest) :=
              Nat.lt_of_le_of_lt
                (Nat.le_trans (TokenTree.count_le_of_sublist (afterComma_suffix hcomma).sublist)
                  after.2)
                hcount
            match readFrom fallback more with
            | .error f => .error f
            | .ok entries => .ok (entry :: entries)
termination_by TokenTree.count trees

/-- The entries of a list of trees. In an empty list a failure is placed at the anchor. -/
def readAll (trees : List TokenTree) (anchor : Option Location) :
    Except Failure (List OptionEntry) :=
  readFrom (TokenTree.endPlace anchor trees) trees

def ofArguments (g : Group) : Except Failure (List OptionEntry) :=
  readAll g.inner (some g.opener.start)

end OptionEntry
end LuaBindings
