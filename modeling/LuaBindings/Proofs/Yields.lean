import LuaBindings.Declaration.Method
import LuaBindings.Proofs.Cursor
import LuaBindings.Proofs.RustType.Marks

/-!
# What readers give on given trees

A reader yields a value on some trees in front of others: it succeeds with the value,
takes these trees and leaves the others. A chain of readers yields on the trees of its
parts put together.
-/

set_option autoImplicit false

namespace LuaBindings

theorem Cursor.skip_append (past taken rest : List TokenTree) (anchor : Option Location) :
    (⟨past, taken ++ rest, anchor⟩ : Cursor).skip taken.length =
      ⟨taken.reverse ++ past, rest, anchor⟩ := by
  rw [skip, List.take_left, List.drop_left]

namespace Reader

open TokenTree (maybe)

variable {α β : Type} {taken front back rest : List TokenTree}

def Yields (reader : Reader α) (taken rest : List TokenTree) (a : α) : Prop :=
  ∀ past anchor, reader ⟨past, taken ++ rest, anchor⟩ = .ok a ⟨taken.reverse ++ past, rest, anchor⟩

theorem bind_of_ok {x : Reader α} {f : α → Reader β} {c c' : Cursor} {a : α}
    (h : x c = .ok a c') : (x >>= f) c = f a c' := by
  change EStateM.bind x f c = _
  rw [EStateM.bind, h]

theorem yields_pure (a : α) (rest : List TokenTree) : (pure a : Reader α).Yields [] rest a :=
  fun _ _ => rfl

theorem Yields.bind {x : Reader α} {f : α → Reader β} {a : α} {b : β}
    (hx : x.Yields front (back ++ rest) a) (hf : (f a).Yields back rest b) :
    (x >>= f).Yields (front ++ back) rest b := by
  intro past anchor
  rw [List.append_assoc, bind_of_ok (hx past anchor), hf, List.reverse_append, List.append_assoc]

/-- What takes nothing may come before a chain. -/
theorem Yields.before {x : Reader α} {f : α → Reader β} {a : α} {b : β}
    (hx : x.Yields [] (taken ++ rest) a) (hf : (f a).Yields taken rest b) :
    (x >>= f).Yields taken rest b :=
  Yields.bind hx hf

/-- What takes nothing may end a chain. -/
theorem Yields.after {x : Reader α} {f : α → Reader β} {a : α} {b : β}
    (hx : x.Yields taken rest a) (hf : (f a).Yields [] rest b) : (x >>= f).Yields taken rest b := by
  have h : (x >>= f).Yields (taken ++ []) rest b := Yields.bind hx hf
  rwa [List.append_nil] at h

theorem Yields.runOn {reader : Reader α} {a : α} (h : reader.Yields taken rest a)
    (anchor : Location) : reader.runOn (taken ++ rest) anchor = .ok a := by
  rw [Reader.runOn, Cursor.ofTrees, h]

theorem Yields.lookahead {reader : Reader α} {a : α} (h : reader.Yields taken rest a) :
    (Reader.lookahead reader).Yields [] (taken ++ rest) a := by
  intro past anchor
  rw [List.nil_append, Reader.lookahead, h]
  rfl

/-! ### Readers of the next trees -/

theorem yields_sees (p : TokenTree → Bool) (rest : List TokenTree) :
    (sees p).Yields [] rest (rest.head?.any p) := by
  intro past anchor
  rw [sees, Cursor.sees, Cursor.peek, List.head?_eq_getElem?]
  rfl

theorem yields_next (tree : TokenTree) (rest : List TokenTree) :
    next.Yields [tree] rest tree :=
  fun _ _ => rfl

theorem yields_rest (trees : List TokenTree) : Reader.rest.Yields trees [] trees := by
  intro past anchor
  rw [Reader.rest, List.append_nil]
  exact congrArg _ (by simpa using Cursor.skip_append past trees [] anchor)

theorem yields_whenAtEnd (a : α) (rest : List TokenTree) :
    (whenAtEnd a).Yields [] rest (if rest = [] then some a else none) := by
  intro past anchor
  cases rest <;> rfl

theorem yields_ofExcept {result : Except Failure α} {a : α} (h : result = .ok a)
    (rest : List TokenTree) : (ofExcept result).Yields [] rest a := by
  intro past anchor
  rw [h]
  rfl

theorem yields_takeUntil {p : TokenTree → Bool} (htaken : ∀ tree ∈ taken, p tree = false)
    (hrest : ∀ tree ∈ rest.head?, p tree = true) : (takeUntil p).Yields taken rest taken := by
  intro past anchor
  have htake : (taken ++ rest).takeWhile (fun tree => !p tree) = taken := by
    rw [List.takeWhile_append_of_pos fun tree h => by simp [htaken tree h]]
    cases rest with
    | nil => rw [List.takeWhile_nil, List.append_nil]
    | cons tree rest =>
      rw [List.takeWhile_cons_of_neg (by simp [hrest tree rfl]), List.append_nil]
  rw [takeUntil, htake]
  exact congrArg _ (Cursor.skip_append past taken rest anchor)

theorem yields_eat {p : Token → Bool} {t : Token} (h : p t = true) (rest : List TokenTree) :
    (eat p).Yields [.token t] rest (some t) := by
  intro past anchor
  simp [eat, Cursor.peek, TokenTree.token?, h, Cursor.skip]

theorem head?_token?_eq_none {p : Token → Bool} {trees : List TokenTree}
    (h : trees.head?.any (·.isToken p) = false) :
    trees.head?.bind (TokenTree.token? p) = none := by
  cases trees with
  | nil => rfl
  | cons tree trees => simpa [TokenTree.isToken] using h

theorem yields_eat_none {p : Token → Bool}
    (h : rest.head?.bind (TokenTree.token? p) = none) : (eat p).Yields [] rest none := by
  intro past anchor
  rw [eat, Cursor.peek, List.nil_append, ← List.head?_eq_getElem?, h]
  rfl

/-- An optional token is taken if it is there. -/
theorem yields_eat_maybe {p : Token → Bool} {q : Token → Prop} (hpq : ∀ t, q t → p t = true)
    (t : Option { t : Token // q t })
    (h : t = none → rest.head?.bind (TokenTree.token? p) = none) :
    (eat p).Yields (maybe t) rest (t.map Subtype.val) := by
  cases t with
  | none => exact yields_eat_none (h rfl)
  | some t => exact yields_eat (hpq t.1 t.2) rest

theorem yields_eatWord {name : String} (word : Token.Word name) (rest : List TokenTree) :
    (eatWord name).Yields [.token word.1] rest true :=
  .after (yields_eat word.2 rest) (yields_pure _ _)

theorem yields_eatWord_false {name : String}
    (h : rest.head?.bind (TokenTree.token? (·.isIdent name)) = none) :
    (eatWord name).Yields [] rest false :=
  .after (yields_eat_none h) (yields_pure _ _)

theorem yields_eatWord_maybe {name : String} (word : Option (Token.Word name))
    (h : word = none → rest.head?.bind (TokenTree.token? (·.isIdent name)) = none) :
    (eatWord name).Yields (maybe word) rest word.isSome := by
  cases word with
  | none => exact yields_eatWord_false (h rfl)
  | some word => exact yields_eatWord word rest

/-- Whether or not a token is there to take, the reader yields. -/
theorem exists_yields_eat (p : Token → Bool) (trees : List TokenTree) :
    ∃ t taken rest, trees = taken ++ rest ∧ (eat p).Yields taken rest t ∧
      ∀ tree ∈ taken, tree.isToken p = true := by
  cases h : trees.head?.bind (TokenTree.token? p) with
  | none => exact ⟨none, [], trees, rfl, yields_eat_none h, by simp⟩
  | some t =>
    obtain ⟨tree, hhead, htree⟩ := Option.bind_eq_some_iff.1 h
    obtain ⟨rest, rfl⟩ := List.head?_eq_some_iff.1 hhead
    obtain ⟨rfl, ht⟩ := TokenTree.token?_eq_some htree
    refine ⟨some t, [.token t], rest, rfl, yields_eat ht rest, ?_⟩
    simp [TokenTree.isToken, TokenTree.token?, ht]

theorem exists_yields_eatWord (name : String) (trees : List TokenTree) :
    ∃ isThere taken rest, trees = taken ++ rest ∧ (eatWord name).Yields taken rest isThere ∧
      ∀ tree ∈ taken, tree.isIdent name = true := by
  obtain ⟨t, taken, rest, rfl, hyields, htaken⟩ := exists_yields_eat (·.isIdent name) trees
  exact ⟨t.isSome, taken, rest, rfl, .after hyields (yields_pure _ _), htaken⟩

theorem yields_expectPunct {text : String} (mark : Token.Mark text) (rest : List TokenTree) :
    (expectPunct text).Yields [.token mark.1] rest mark.1 :=
  .after (yields_eat mark.2 rest) (yields_pure _ _)

theorem yields_expectWord {name : String} (word : Token.Word name) (rest : List TokenTree) :
    (expectIdent (some name)).Yields [.token word.1] rest word.1 := by
  have hword : (eatIdent (some name)).Yields [.token word.1] rest (some word.1) :=
    yields_eat word.2 rest
  exact .after hword (yields_pure _ _)

theorem yields_expectName (name : Token.OfKind .ident) (rest : List TokenTree) :
    (expectIdent none).Yields [.token name.1] rest name.1 := by
  have hkind : (name.1.kind == .ident) = true := beq_iff_eq.2 name.2
  have hname : (eatIdent none).Yields [.token name.1] rest (some name.1) :=
    yields_eat (p := (·.kind == .ident)) hkind rest
  exact .after hname (yields_pure _ _)

theorem yields_expectGroup (g : Group) (rest : List TokenTree) :
    (expectGroup g.delimiter).Yields [g.tree] rest g := by
  intro past anchor
  simp [expectGroup, Cursor.peek, Group.tree, TokenTree.group?, Cursor.skip]

/-- An angle list is taken with its brackets. -/
theorem yields_angleList {inner : List TokenTree} (hinner : TokenTree.Balanced inner)
    (opening : Token.Mark "<") (closing : Token.Mark ">") (rest : List TokenTree) :
    angleList.Yields (.token opening.1 :: (inner ++ [.token closing.1])) rest
      (.token opening.1 :: (inner ++ [.token closing.1])) := by
  have hopening := yields_expectPunct opening (inner ++ [.token closing.1] ++ rest)
  refine Yields.bind hopening fun past anchor => ?_
  have hthrough := hinner.throughAngle_closing (TokenTree.isPunct_mark closing) rest
  rw [List.append_cons] at hthrough
  let c : Cursor := ⟨past, inner ++ [.token closing.1] ++ rest, anchor⟩
  change (get >>= _ : Reader (List TokenTree)) c = _
  rw [bind_of_ok (show (get : Reader Cursor) c = .ok c c from rfl), hthrough]
  change EStateM.Result.ok _ (c.skip (inner ++ [TokenTree.token closing.1]).length) = _
  rw [Cursor.skip_append]

end Reader
end LuaBindings
