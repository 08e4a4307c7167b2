import LuaBindings.Proofs.Yields

/-!
# Runs of a cursor

A cursor is asked to look at what comes next, or to hand it over. Whatever was asked, the trees
that were handed over and those behind the cursor are the list that it was given, and what is
refused leaves it where it stood (`run_accounts`). So a reader that fails to find what it looks
for has lost nothing, and a loop that takes one tree in every turn ends.
-/

set_option autoImplicit false

namespace LuaBindings.Cursor

inductive Operation where
  | atEnd
  | peek (offset : Nat)
  | next
  | rest
  | eatPunct (text : String)
  | eatIdent (name : Option String)
  | expectPunct (text : String)
  | expectIdent (name : Option String)
  | expectGroup (delimiter : Delimiter)
  deriving DecidableEq, Repr

structure Outcome where
  /-- The trees that were handed over. What is only looked at is not among them. -/
  taken : List TokenTree
  /-- Whether the operation failed, or found nothing to eat. -/
  isRefused : Bool
  cursor : Cursor

namespace Outcome

variable {α : Type}

/-- The outcome of a reader, by the trees that its answer hands over and by whether the answer
says that there was nothing to eat. -/
def ofResult (handed : α → List TokenTree) (isMiss : α → Bool) :
    EStateM.Result Failure Cursor α → Outcome
  | .ok answer c => ⟨handed answer, isMiss answer, c⟩
  | .error _ c => ⟨[], true, c⟩

/-- The next tree is taken if it is one of those that are wanted. -/
def ofNext (p : TokenTree → Bool) (c : Cursor) : Outcome :=
  if c.rest.head?.any p then ⟨c.rest.take 1, false, c.skip 1⟩ else ⟨[], true, c⟩

end Outcome

namespace Operation

abbrev Value : Operation → Type
  | atEnd => Bool
  | peek _ => Option TokenTree
  | next => TokenTree
  | rest => List TokenTree
  | eatPunct _ | eatIdent _ => Option Token
  | expectPunct _ | expectIdent _ => Token
  | expectGroup _ => Group

def reader : (op : Operation) → Reader op.Value
  | atEnd => fun c => .ok c.atEnd c
  | peek offset => fun c => .ok (c.peek offset) c
  | next => Reader.next
  | rest => Reader.rest
  | eatPunct text => Reader.eatPunct text
  | eatIdent name => Reader.eatIdent name
  | expectPunct text => Reader.expectPunct text
  | expectIdent name => Reader.expectIdent name
  | expectGroup delimiter => Reader.expectGroup delimiter

def handed : (op : Operation) → op.Value → List TokenTree
  | atEnd, _ | peek _, _ => []
  | next, tree => [tree]
  | rest, trees => trees
  | eatPunct _, found | eatIdent _, found => found.toList.map .token
  | expectPunct _, t | expectIdent _, t => [.token t]
  | expectGroup _, g => [g.tree]

/-- Whether an answer says that what would have been eaten is not there. -/
def isMiss : (op : Operation) → op.Value → Bool
  | eatPunct _, found | eatIdent _, found => found.isNone
  | _, _ => false

def perform (op : Operation) (c : Cursor) : Outcome :=
  .ofResult op.handed op.isMiss (op.reader c)

def wantsIdent : Option String → Token → Bool
  | none, t => t.kind == .ident
  | some name, t => t.isIdent name

/-- Which trees an operation takes, if it takes the next one or is refused. -/
def wanted? : Operation → Option (TokenTree → Bool)
  | atEnd | peek _ | rest => none
  | next => some fun _ => true
  | eatPunct text | expectPunct text => some (TokenTree.isPunct text)
  | eatIdent name | expectIdent name => some (TokenTree.isToken (wantsIdent name))
  | expectGroup delimiter => some (TokenTree.isGroup delimiter)

end Operation

/-! ### One operation -/

namespace Outcome

theorem ofNext_nil (p : TokenTree → Bool) {c : Cursor} (h : c.rest = []) :
    ofNext p c = ⟨[], true, c⟩ := by
  simp [ofNext, h]

theorem ofNext_cons (p : TokenTree → Bool) {c : Cursor} {tree : TokenTree}
    {more : List TokenTree} (h : c.rest = tree :: more) :
    ofNext p c = if p tree then ⟨[tree], false, c.skip 1⟩ else ⟨[], true, c⟩ := by
  simp [ofNext, h]

theorem ofResult_next (c : Cursor) :
    ofResult (fun tree => [tree]) (fun _ => false) (Reader.next c) = ofNext (fun _ => true) c := by
  cases h : c.rest with
  | nil =>
    rw [ofNext_nil _ h, Reader.next, h]
    rfl
  | cons tree more =>
    rw [ofNext_cons _ h, Reader.next, h]
    rfl

theorem ofResult_expectGroup (delimiter : Delimiter) (c : Cursor) :
    ofResult (fun g => [g.tree]) (fun _ => false) (Reader.expectGroup delimiter c) =
      ofNext (TokenTree.isGroup delimiter) c := by
  cases h : c.rest with
  | nil =>
    rw [ofNext_nil _ h]
    simp [Reader.expectGroup, Cursor.peek, h, ofResult]
  | cons tree more =>
    rw [ofNext_cons _ h, TokenTree.isGroup]
    cases hgroup : tree.group? delimiter with
    | none => simp [Reader.expectGroup, Cursor.peek, h, hgroup, ofResult]
    | some g =>
      obtain ⟨-, rfl⟩ := TokenTree.group?_eq_some hgroup
      simp [Reader.expectGroup, Cursor.peek, h, hgroup, ofResult]

/-- Eating has the two outcomes of asking for the next tree, and its answer tells which. -/
theorem eat_cases (p : Token → Bool) (c : Cursor) :
    (∃ t, Reader.eat p c = .ok (some t) (c.skip 1) ∧
      ofNext (TokenTree.isToken p) c = ⟨[.token t], false, c.skip 1⟩) ∨
    Reader.eat p c = .ok none c ∧ ofNext (TokenTree.isToken p) c = ⟨[], true, c⟩ := by
  cases h : c.rest with
  | nil =>
    right
    rw [ofNext_nil _ h]
    simp [Reader.eat, Cursor.peek, h]
  | cons tree more =>
    rw [ofNext_cons _ h, TokenTree.isToken]
    cases htoken : tree.token? p with
    | none =>
      right
      simp [Reader.eat, Cursor.peek, h, htoken]
    | some t =>
      left
      use t
      obtain ⟨rfl, -⟩ := TokenTree.token?_eq_some htoken
      simp [Reader.eat, Cursor.peek, h, htoken]

theorem ofResult_eat (p : Token → Bool) (c : Cursor) :
    ofResult (fun t => t.toList.map .token) Option.isNone (Reader.eat p c) =
      ofNext (TokenTree.isToken p) c := by
  rcases eat_cases p c with ⟨t, heat, hnext⟩ | ⟨heat, hnext⟩
  · rw [heat, hnext]
    rfl
  · rw [heat, hnext]
    rfl

/-- What must be there is asked for like what may be there. -/
theorem ofResult_expect (p : Token → Bool) (cause : Cause) (c : Cursor) :
    ofResult (fun t => [.token t]) (fun _ => false)
        ((do match ← Reader.eat p with
          | some t => return t
          | none => Reader.fail cause : Reader Token) c) =
      ofNext (TokenTree.isToken p) c := by
  rcases eat_cases p c with ⟨t, heat, hnext⟩ | ⟨heat, hnext⟩
  · rw [Reader.bind_of_ok heat, hnext]
    rfl
  · rw [Reader.bind_of_ok heat, hnext]
    rfl

end Outcome

open Operation

theorem eatIdent_eq (name : Option String) : Reader.eatIdent name = Reader.eat (wantsIdent name) := by
  cases name <;> rfl

/-- What wants one of certain trees takes the next tree if it is one of them. -/
theorem perform_of_wanted {op : Operation} {p : TokenTree → Bool} (h : op.wanted? = some p)
    (c : Cursor) : op.perform c = .ofNext p c := by
  cases op with
  | atEnd | peek | rest => cases h
  | next =>
    cases h
    exact Outcome.ofResult_next c
  | eatPunct text =>
    cases h
    exact Outcome.ofResult_eat (·.isPunct text) c
  | eatIdent name =>
    cases h
    rw [perform, reader, eatIdent_eq]
    exact Outcome.ofResult_eat (wantsIdent name) c
  | expectPunct text =>
    cases h
    exact Outcome.ofResult_expect (·.isPunct text) (.expected text) c
  | expectIdent name =>
    cases h
    rw [perform, reader, Reader.expectIdent, eatIdent_eq]
    exact Outcome.ofResult_expect (wantsIdent name) (Reader.missingIdent name) c
  | expectGroup delimiter =>
    cases h
    exact Outcome.ofResult_expectGroup delimiter c

/-- Everything else takes some of the trees and is never refused. -/
theorem perform_of_not_wanted {op : Operation} (h : op.wanted? = none) (c : Cursor) :
    ∃ n, op.perform c = ⟨c.rest.take n, false, c.skip n⟩ := by
  cases op with
  | atEnd => exact ⟨0, rfl⟩
  | peek offset => exact ⟨0, rfl⟩
  | rest =>
    use c.rest.length
    rw [List.take_length]
    rfl
  | _ => cases h

theorem takes_perform (op : Operation) (c : Cursor) :
    c.Takes (op.perform c).taken (op.perform c).cursor := by
  cases h : op.wanted? with
  | none =>
    obtain ⟨n, hperform⟩ := perform_of_not_wanted h c
    rw [hperform]
    exact takes_skip c n
  | some p =>
    rw [perform_of_wanted h, Outcome.ofNext]
    split
    · exact takes_skip c 1
    · exact Takes.refl c

theorem isRefused_perform (op : Operation) (c : Cursor) :
    (op.perform c).isRefused = op.wanted?.any fun p => !c.rest.head?.any p := by
  cases h : op.wanted? with
  | none =>
    obtain ⟨n, hperform⟩ := perform_of_not_wanted h c
    rw [hperform]
    rfl
  | some p =>
    rw [perform_of_wanted h, Outcome.ofNext, Option.any_some]
    cases c.rest.head?.any p <;> rfl

theorem cursor_of_isRefused {op : Operation} {c : Cursor} (h : (op.perform c).isRefused = true) :
    (op.perform c).cursor = c := by
  cases hwanted : op.wanted? with
  | none =>
    rw [isRefused_perform, hwanted] at h
    cases h
  | some p =>
    rw [perform_of_wanted hwanted, Outcome.ofNext] at h ⊢
    split at h
    · cases h
    · rename_i hmissed
      rw [if_neg hmissed]

/-- What wants a tree and is not refused takes just that one. -/
theorem position_of_wanted {op : Operation} {c : Cursor} (hwanted : op.wanted?.isSome = true)
    (h : (op.perform c).isRefused = false) : (op.perform c).cursor.position = c.position + 1 := by
  obtain ⟨p, hp⟩ := Option.isSome_iff_exists.1 hwanted
  rw [perform_of_wanted hp] at h ⊢
  cases hrest : c.rest with
  | nil =>
    rw [Outcome.ofNext_nil p hrest] at h
    cases h
  | cons tree more =>
    rw [Outcome.ofNext_cons p hrest] at h ⊢
    split at h
    · rename_i htree
      rw [if_pos htree, skip, position, position, hrest]
      simp
    · cases h

/-! ### One after the other -/

/-- The cursor after all of the operations. What was refused does not end a run. -/
def run : List Operation → Cursor → Cursor
  | [], c => c
  | op :: ops, c => run ops (op.perform c).cursor

def takenIn : List Operation → Cursor → List TokenTree
  | [], _ => []
  | op :: ops, c => (op.perform c).taken ++ takenIn ops (op.perform c).cursor

theorem run_append (ops later : List Operation) (c : Cursor) :
    run (ops ++ later) c = run later (run ops c) := by
  induction ops generalizing c with
  | nil => rfl
  | cons op ops ih => exact ih _

theorem takes_run (ops : List Operation) (c : Cursor) : c.Takes (takenIn ops c) (run ops c) := by
  induction ops generalizing c with
  | nil => exact Takes.refl c
  | cons op ops ih => exact (takes_perform op c).trans (ih _)

theorem Takes.position_le {c c' : Cursor} {taken : List TokenTree} (h : c.Takes taken c') :
    c.position ≤ c'.position := by
  rw [position, position, h.past_eq, List.length_append]
  omega

/-- Whatever was asked of a cursor, the trees that it handed over and those from its position on
are the list that it was given, and the position never goes back nor beyond the end. What is asked
next is refused just if it wants a tree that is not the next one. Then the cursor stays as it is,
and else what wants a tree takes it. -/
theorem run_accounts (trees : List TokenTree) (anchor : Option Location) (ops : List Operation) :
    let start := ofTrees trees anchor
    let c := run ops start
    takenIn ops start ++ trees.drop c.position = trees ∧ c.rest = trees.drop c.position ∧
      c.position ≤ trees.length ∧
      (∀ later, c.position ≤ (run (ops ++ later) start).position) ∧
      ∀ op : Operation,
        (op.perform c).isRefused = (op.wanted?.any fun p => !c.rest.head?.any p) ∧
          ((op.perform c).isRefused = true → (op.perform c).cursor = c) ∧
          (op.wanted?.isSome = true → (op.perform c).isRefused = false →
            (op.perform c).cursor.position = c.position + 1) := by
  intro start c
  have htakes : start.Takes (takenIn ops start) c := takes_run ops start
  have htrees : trees = takenIn ops start ++ c.rest := htakes.rest_eq
  have hposition : c.position = (takenIn ops start).length := htakes.position_eq
  have hrest : trees.drop c.position = c.rest := by
    rw [hposition]
    nth_rewrite 1 [htrees]
    exact List.drop_left
  have hlength : trees.length = (takenIn ops start).length + c.rest.length := by
    rw [← List.length_append, ← htrees]
  refine ⟨?_, hrest.symm, ?_, ?_, ?_⟩
  · rw [hrest, ← htrees]
  · omega
  · intro later
    rw [run_append]
    exact (takes_run later c).position_le
  · intro op
    exact ⟨isRefused_perform op c, cursor_of_isRefused, position_of_wanted⟩

/-- Two operations of a run are refused, and so is a group that is asked for after it. -/
theorem run_accounts_refused :
    let name : TokenTree := .token ⟨.ident, "a", ⟨0, 1, 1⟩, ⟨1, 1, 2⟩⟩
    let comma : TokenTree := .token ⟨.punct, ",", ⟨1, 1, 2⟩, ⟨2, 1, 3⟩⟩
    let start := ofTrees [name, comma, name] none
    let ops : List Operation :=
      [.eatPunct ",", .next, .peek 1, .expectIdent none, .eatPunct ","]
    takenIn ops start = [name, comma] ∧ takenIn ops start ++ [name] = [name, comma, name] ∧
      ((expectGroup .paren).perform (run ops start)).isRefused = true ∧
      ((expectGroup .paren).perform (run ops start)).cursor = run ops start ∧
      (next.perform (run ops start)).isRefused = false ∧
      (next.perform (run ops start)).cursor.position = (run ops start).position + 1 := by
  intro name comma start ops
  obtain ⟨haccounts, -, -, -, hnext⟩ := run_accounts [name, comma, name] none ops
  obtain ⟨-, hstays, -⟩ := hnext (expectGroup .paren)
  obtain ⟨-, -, hmoves⟩ := hnext next
  have htaken : takenIn ops start = [name, comma] := by rfl
  have hrefused : ((expectGroup .paren).perform (run ops start)).isRefused = true := by rfl
  have hgiven : (next.perform (run ops start)).isRefused = false := by rfl
  exact ⟨htaken, haccounts, hrefused, hstays hrefused, hgiven, hmoves rfl hgiven⟩

end LuaBindings.Cursor
