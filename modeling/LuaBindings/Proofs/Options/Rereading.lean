import LuaBindings.Proofs.Cursor
import LuaBindings.Proofs.Options.Syntax

/-!
# Options are read as they are written

A list of trees is read as entries just if it is what entries are written with, and then it is
read as those entries (`readAll_eq_ok_iff`). One step of the reader is an entry and the comma
behind it (`readFrom_cons_eq_ok_iff`); the entries of a list are read on their own.
-/

set_option autoImplicit false

namespace LuaBindings.OptionEntry

open TokenTree

variable {fallback : Option Location} {trees rest : List TokenTree}

/-! ### Values -/

def EndsEntry (trees : List TokenTree) : Prop := ∀ tree ∈ trees.head?, tree.isPunct "," = true

theorem endsEntry_nil : EndsEntry [] := by rintro tree ⟨⟩

theorem endsEntry_comma (comma : Token.Mark ",") (trees : List TokenTree) :
    EndsEntry (.token comma.1 :: trees) := by
  rintro tree ⟨⟩
  exact isPunct_mark comma

theorem token?_comma {tree : TokenTree} {p : Token → Bool} (h : tree.isPunct "," = true)
    (hp : ∀ t : Token, t.text = "," → p t = false) : tree.token? p = none := by
  obtain ⟨t, rfl, -, htext⟩ := isPunct_iff.1 h
  rw [token?, if_neg (by simp [hp t htext])]

theorem pathTail_trees (h : EndsEntry rest) (segments : List SegmentSyntax) :
    pathTail fallback ((segments.flatMap SegmentSyntax.tokens).map token ++ rest) =
      .ok (segments.flatMap SegmentSyntax.tokens, rest) := by
  induction segments with
  | nil =>
    cases rest with
    | nil => rfl
    | cons tree more =>
      have hcolons : tree.token? (·.isPunct "::") = none :=
        token?_comma (h tree rfl) fun t htext => by simp [Token.isPunct, htext]
      simp [pathTail, hcolons]
  | cons s segments ih =>
    have hcolons : (token s.colons.1).token? (·.isPunct "::") = some s.colons.1 :=
      token?_token _ _ s.colons.2
    have hname : (token s.name.1).token? (·.kind == .ident) = some s.name.1 :=
      token?_token _ _ (by simp [s.name.2])
    simp [SegmentSyntax.tokens, pathTail, hcolons, hname, ih]

theorem exists_of_pathTail {segments : List Token}
    (h : pathTail fallback trees = .ok (segments, rest)) :
    ∃ s : List SegmentSyntax, segments = s.flatMap SegmentSyntax.tokens ∧
      trees = segments.map token ++ rest := by
  fun_induction pathTail fallback trees generalizing segments with
  | case1 =>
    cases h
    exact ⟨[], rfl, rfl⟩
  | case2 =>
    cases h
    exact ⟨[], rfl, rfl⟩
  | case3 => cases h
  | case4 => cases h
  | case5 => cases h
  | case6 first colons hcolons second more name hname _ _ heq ih =>
    cases h
    obtain ⟨rfl, hmark⟩ := token?_eq_some hcolons
    obtain ⟨rfl, hident⟩ := token?_eq_some hname
    obtain ⟨s, rfl, rfl⟩ := ih heq
    exact ⟨⟨⟨colons, hmark⟩, ⟨name, by simpa using hident⟩⟩ :: s, rfl, rfl⟩

theorem readValue_name (first : Token.OfKind .ident) (segments : List SegmentSyntax)
    (h : pathTail fallback trees = .ok (segments.flatMap SegmentSyntax.tokens, rest)) :
    readValue fallback (token first.1 :: trees) = .ok ((ValueSyntax.name first segments).value, rest) := by
  rw [readValue, if_pos first.2, h]
  cases segments <;> rfl

theorem readValue_trees (h : EndsEntry rest) (v : ValueSyntax) :
    readValue fallback (v.trees ++ rest) = .ok (v.value, rest) := by
  cases v with
  | name first segments => exact readValue_name first segments (pathTail_trees h segments)
  | literal t =>
    have hkind : t.1.kind ≠ .ident := by
      have hliteral := t.2
      rintro hident
      simp [isLiteral, hident, TokenKind.isString] at hliteral
    change readValue fallback (token t.1 :: rest) = _
    rw [readValue, if_neg hkind, if_pos t.2]
    rfl
  | negated minus number =>
    have hkind := Token.Mark.kind_eq minus
    have hnumber : (token number.1).token? (·.kind == .number) = some number.1 :=
      token?_token _ _ (by simp [number.2])
    change readValue fallback (token minus.1 :: token number.1 :: rest) = _
    rw [readValue, if_neg (by simp [hkind]), if_neg (by simp [isLiteral, hkind, TokenKind.isString]),
      List.head?_cons, Option.bind_some, hnumber]
    dsimp only
    rw [if_pos minus.2]
    rfl

theorem exists_of_readValue {value : OptionValue}
    (h : readValue fallback trees = .ok (value, rest)) :
    ∃ v : ValueSyntax, value = v.value ∧ trees = v.trees ++ rest := by
  rcases trees with _ | ⟨⟨t⟩ | _, more⟩
  · cases h
  · by_cases hident : t.kind = .ident
    · cases hpath : pathTail fallback more with
      | error f =>
        rw [readValue, if_pos hident, hpath] at h
        cases h
      | ok result =>
        obtain ⟨segments, behind⟩ := result
        obtain ⟨s, rfl, rfl⟩ := exists_of_pathTail hpath
        rw [readValue_name ⟨t, hident⟩ s hpath] at h
        cases h
        exact ⟨.name ⟨t, hident⟩ s, rfl, rfl⟩
    · rw [readValue, if_neg hident] at h
      by_cases hliteral : isLiteral t = true
      · rw [if_pos hliteral] at h
        cases h
        exact ⟨.literal ⟨t, hliteral⟩, rfl, rfl⟩
      · rw [if_neg hliteral] at h
        cases hnumber : more.head?.bind (token? (·.kind == .number)) with
        | none =>
          rw [hnumber] at h
          cases h
        | some number =>
          rw [hnumber] at h
          dsimp only at h
          split at h
          · rename_i hminus
            cases h
            obtain ⟨tree, hfirst, hnumber⟩ := Option.bind_eq_some_iff.1 hnumber
            obtain ⟨more, rfl⟩ := List.head?_eq_some_iff.1 hfirst
            obtain ⟨rfl, hkind⟩ := token?_eq_some hnumber
            exact ⟨.negated ⟨t, hminus⟩ ⟨number, by simpa using hkind⟩, rfl, rfl⟩
          · cases h
  · cases h

/-! ### One entry -/

def Given.after : Given → List TokenTree
  | .nothing after => after
  | .single _ _ after => after
  | .list _ after => after

/-- The entry of a key and of what is given to it. The entries of a list are read on their own. -/
def Given.entry (name : Token) : Given → Except Failure OptionEntry
  | .nothing _ => .ok (.bare name)
  | .single separator value _ => .ok (OptionEntry.single name separator value)
  | .list g _ => (ofArguments g).map (OptionEntry.list name g.opener)

theorem readFrom_cons {tree : TokenTree} {name : Token}
    (h : tree.token? (·.kind == .ident) = some name) :
    readFrom fallback (tree :: trees) = (do
      let given ← readGiven fallback trees
      let entry ← given.entry name
      let more ← afterComma given.after
      return entry :: (← readFrom fallback more)) := by
  rw [readFrom, h]
  dsimp only
  split
  · rename_i f hgiven
    rw [hgiven]
    rfl
  · rename_i given hgiven
    cases given with
    | nothing after | single separator value after =>
      dsimp only
      rw [hgiven]
      cases hcomma : afterComma after with
      | error f => simp [bind, Except.bind, Given.entry, Given.after, hcomma]
      | ok more =>
        simp only [bind, Except.bind, Given.entry, Given.after, hcomma]
        cases readFrom fallback more <;> rfl
    | list g after =>
      have hargs : readFrom (endPlace (some g.opener.start) g.inner) g.inner = ofArguments g := rfl
      dsimp only
      rw [hgiven, hargs]
      cases hentries : ofArguments g with
      | error f => simp [bind, Except.bind, Except.map, Given.entry, hentries]
      | ok entries =>
        dsimp only
        cases hcomma : afterComma after with
        | error f => simp [bind, Except.bind, Except.map, Given.entry, Given.after, hentries, hcomma]
        | ok more =>
          simp only [bind, Except.bind, Except.map, Given.entry, Given.after, hentries, hcomma]
          cases readFrom fallback more <;> rfl

/-! ### Reading what is written -/

def EntrySyntax.tail : EntrySyntax → List TokenTree
  | .bare _ => []
  | .single _ separator value => .token separator.1 :: value.trees
  | .list _ opener entries closer => [.group .paren opener entries.trees closer]

def EntrySyntax.name : EntrySyntax → Token.OfKind .ident
  | .bare name => name
  | .single name .. => name
  | .list name .. => name

def EntrySyntax.given (rest : List TokenTree) : EntrySyntax → Given
  | .bare _ => .nothing rest
  | .single _ separator value => .single separator.1 value.value rest
  | .list _ opener entries closer => .list ⟨.paren, opener, entries.trees, closer⟩ rest

theorem EntrySyntax.trees_eq (e : EntrySyntax) : e.trees = .token e.name.1 :: e.tail := by
  cases e <;> rfl

theorem EntrySyntax.after_given (rest : List TokenTree) (e : EntrySyntax) :
    (e.given rest).after = rest := by
  cases e <;> rfl

theorem EntrySyntax.readGiven_tail (h : EndsEntry rest) (fallback : Option Location)
    (e : EntrySyntax) :
    readGiven fallback (e.tail ++ rest) = .ok (e.given rest) := by
  cases e with
  | bare name =>
    cases rest with
    | nil => rfl
    | cons tree more =>
      have hcomma := h tree rfl
      have hseparator : tree.token? (fun t => t.isPunct ":" || t.isPunct "=") = none :=
        token?_comma hcomma fun t htext => by simp [Token.isPunct, htext]
      have hgroup : tree.group? .paren = none := by
        obtain ⟨t, rfl, -⟩ := isPunct_iff.1 hcomma
        rfl
      change readGiven fallback (tree :: more) = _
      rw [readGiven, hseparator, hgroup]
      rfl
  | single name separator value =>
    have hseparator : (token separator.1).token? (fun t => t.isPunct ":" || t.isPunct "=") =
        some separator.1 := token?_token _ _ separator.2
    change readGiven fallback (token separator.1 :: (value.trees ++ rest)) = _
    rw [readGiven, hseparator, readValue_trees h]
    rfl
  | list name opener entries closer => rfl

theorem afterComma_comma (comma : Token.Mark ",") (trees : List TokenTree) :
    afterComma (.token comma.1 :: trees) = .ok trees := if_pos (isPunct_mark comma)

mutual

theorem EntrySyntax.entry_given : ∀ (e : EntrySyntax) (rest : List TokenTree),
    (e.given rest).entry e.name.1 = .ok e.entry
  | .bare _, _ => rfl
  | .single .., _ => rfl
  | .list name opener entries closer, _ => by
    have hread : ofArguments ⟨.paren, opener, entries.trees, closer⟩ = .ok entries.entries :=
      entries.readFrom_trees _
    simp only [EntrySyntax.given, Given.entry, hread]
    rfl

theorem EntriesSyntax.readFrom_trees : ∀ (s : EntriesSyntax) (fallback : Option Location),
    readFrom fallback s.trees = .ok s.entries
  | .nil, _ => by
    rw [EntriesSyntax.trees, readFrom]
    rfl
  | .last e, fallback => by
    have hgiven := e.readGiven_tail endsEntry_nil fallback
    rw [List.append_nil] at hgiven
    rw [EntriesSyntax.trees, e.trees_eq, readFrom_cons (token?_token _ _ (by simp [e.name.2])),
      hgiven]
    simp only [bind, Except.bind, e.entry_given, e.after_given, afterComma]
    rw [readFrom]
    rfl
  | .cons e comma s, fallback => by
    have hgiven := e.readGiven_tail (endsEntry_comma comma s.trees) fallback
    rw [EntriesSyntax.trees, e.trees_eq, List.cons_append,
      readFrom_cons (token?_token _ _ (by simp [e.name.2])), hgiven]
    simp only [bind, Except.bind, e.entry_given, e.after_given, afterComma_comma,
      s.readFrom_trees fallback]
    rfl

end

/-! ### Writing what is read -/

/-- What the reader sees behind a key is how an entry with that key goes on, if the entries of a
list are what they are written with. -/
theorem exists_of_readGiven {given : Given} (name : Token.OfKind .ident) {entry : OptionEntry}
    (h : readGiven fallback trees = .ok given) (hentry : given.entry name.1 = .ok entry)
    (hlist : ∀ g rest entries, given = .list g rest → ofArguments g = .ok entries →
      ∃ s : EntriesSyntax, s.trees = g.inner ∧ s.entries = entries) :
    ∃ e : EntrySyntax, e.entry = entry ∧ .token name.1 :: trees = e.trees ++ given.after := by
  cases trees with
  | nil =>
    cases h
    cases hentry
    exact ⟨.bare name, rfl, rfl⟩
  | cons tree rest =>
    rw [readGiven] at h
    cases hseparator : tree.token? (fun t => t.isPunct ":" || t.isPunct "=") with
    | some separator =>
      rw [hseparator] at h
      cases hvalue : readValue fallback rest with
      | error f =>
        rw [hvalue] at h
        cases h
      | ok result =>
        obtain ⟨value, behind⟩ := result
        rw [hvalue] at h
        cases h
        cases hentry
        obtain ⟨rfl, hmark⟩ := token?_eq_some hseparator
        obtain ⟨v, rfl, rfl⟩ := exists_of_readValue hvalue
        exact ⟨.single name ⟨separator, hmark⟩ v, rfl, rfl⟩
    | none =>
      rw [hseparator] at h
      cases hgroup : tree.group? .paren with
      | some g =>
        rw [hgroup] at h
        cases h
        obtain ⟨hparen, rfl⟩ := group?_eq_some hgroup
        rw [Given.entry] at hentry
        cases hentries : ofArguments g with
        | error f =>
          rw [hentries] at hentry
          cases hentry
        | ok entries =>
          rw [hentries] at hentry
          cases hentry
          obtain ⟨s, hs, rfl⟩ := hlist g rest entries rfl hentries
          refine ⟨.list name g.opener s g.closer, rfl, ?_⟩
          rw [Group.tree, hparen, ← hs]
          rfl
      | none =>
        rw [hgroup] at h
        cases h
        cases hentry
        exact ⟨.bare name, rfl, rfl⟩

theorem exists_of_afterComma {more : List TokenTree} (h : afterComma trees = .ok more) :
    (trees = [] ∧ more = []) ∨ ∃ comma : Token.Mark ",", trees = .token comma.1 :: more := by
  cases trees with
  | nil =>
    cases h
    exact .inl ⟨rfl, rfl⟩
  | cons tree rest =>
    rw [afterComma] at h
    split at h
    · rename_i hcomma
      cases h
      obtain ⟨t, rfl, hkind, htext⟩ := isPunct_iff.1 hcomma
      exact .inr ⟨⟨t, by simp [Token.isPunct, hkind, htext]⟩, rfl⟩
    · cases h

/-- By induction on the number of tokens, since the entries of a list are read from inside a
group. -/
theorem exists_of_readFrom {entries : List OptionEntry}
    (h : readFrom fallback trees = .ok entries) :
    ∃ s : EntriesSyntax, s.trees = trees ∧ s.entries = entries := by
  induction hcount : count trees using Nat.strongRecOn generalizing trees fallback entries with
  | ind n ih =>
    subst hcount
    cases trees with
    | nil =>
      rw [readFrom] at h
      cases h
      exact ⟨.nil, rfl, rfl⟩
    | cons tree rest =>
      cases hname : tree.token? (·.kind == .ident) with
      | none =>
        rw [readFrom, hname] at h
        cases h
      | some name =>
        rw [readFrom_cons hname] at h
        obtain ⟨rfl, hident⟩ := token?_eq_some hname
        obtain ⟨given, hgiven, h⟩ := exists_of_bind_eq_ok h
        obtain ⟨entry, hentry, h⟩ := exists_of_bind_eq_ok h
        obtain ⟨more, hmore, h⟩ := exists_of_bind_eq_ok h
        obtain ⟨others, hothers, h⟩ := exists_of_bind_eq_ok h
        cases h
        have hcount : given.count < count (.token name :: rest) :=
          Nat.lt_of_le_of_lt (count_readGiven hgiven) (count_lt_cons _ _)
        obtain ⟨e, rfl, htrees⟩ := exists_of_readGiven ⟨name, by simpa using hident⟩ hgiven hentry (by
          rintro g behind inner rfl hinner
          exact ih (count g.inner) (Nat.lt_of_le_of_lt (Nat.le_add_right _ _) hcount) hinner rfl)
        rcases exists_of_afterComma hmore with ⟨hnil, rfl⟩ | ⟨comma, hcons⟩
        · rw [readFrom] at hothers
          cases hothers
          rw [hnil, List.append_nil] at htrees
          exact ⟨.last e, htrees.symm, rfl⟩
        · have hless : count more < count (.token name :: rest) := by
            rw [htrees, hcons, count_append]
            exact Nat.lt_of_lt_of_le (count_lt_cons _ _) (Nat.le_add_left _ _)
          obtain ⟨s, rfl, rfl⟩ := ih (count more) hless hothers rfl
          rw [hcons] at htrees
          exact ⟨.cons e comma s, htrees.symm, rfl⟩

/-- Trees are read as entries just if they are what the entries are written with, and refused
just if no entries are written so. -/
theorem readAll_eq_ok_iff (trees : List TokenTree) (anchor : Option Location)
    (entries : List OptionEntry) :
    (readAll trees anchor = .ok entries ↔
      ∃ s : EntriesSyntax, s.trees = trees ∧ s.entries = entries) ∧
    ((∃ f, readAll trees anchor = .error f) ↔ ¬∃ s : EntriesSyntax, s.trees = trees) := by
  have hread : ∀ entries, readAll trees anchor = .ok entries ↔
      ∃ s : EntriesSyntax, s.trees = trees ∧ s.entries = entries := by
    intro entries
    refine ⟨exists_of_readFrom, ?_⟩
    rintro ⟨s, rfl, rfl⟩
    exact s.readFrom_trees _
  refine ⟨hread entries, ?_⟩
  cases hall : readAll trees anchor with
  | ok others =>
    obtain ⟨s, hs, -⟩ := (hread others).1 hall
    exact iff_of_false (by rintro ⟨f, ⟨⟩⟩) (not_not_intro ⟨s, hs⟩)
  | error f =>
    refine iff_of_true ⟨f, rfl⟩ ?_
    rintro ⟨s, hs⟩
    rw [(hread s.entries).2 ⟨s, hs, rfl⟩] at hall
    cases hall

end LuaBindings.OptionEntry
