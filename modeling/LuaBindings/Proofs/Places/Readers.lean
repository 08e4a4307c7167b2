import LuaBindings.Fault
import LuaBindings.Proofs.Cursor
import LuaBindings.Proofs.Lines

/-!
# Where readers fail

Trees are read that consist of the tokens of a text. Whatever a reader fails at is placed where
one of these tokens starts: at the next tree, at the last one, or at an anchor that was given
for an empty list. What it says of the text is a name among the tokens (`Failure.Concerns`). A
reader keeps to the tokens if it does so from every cursor between them and gives what it should
(`Reader.Keeps`); this passes from step to step.
-/

set_option autoImplicit false

namespace LuaBindings

variable {tokens : List Token}

/-! ### Places -/

def Placed (tokens : List Token) (place : Option Location) : Prop :=
  ∃ t ∈ tokens, place = some t.start

def DrawnFrom (tokens : List Token) (trees : List TokenTree) : Prop :=
  ∀ tree ∈ trees, tree.tokens ⊆ tokens

namespace TokenTree

theorem first_mem_tokens (tree : TokenTree) : tree.first ∈ tree.tokens := by
  cases tree <;> simp [first, tokens]

theorem tokens_subset_flatten {tree : TokenTree} {trees : List TokenTree} (h : tree ∈ trees) :
    tree.tokens ⊆ flatten trees := by
  induction trees with
  | nil => cases h
  | cons other trees ih =>
    rw [flatten]
    rcases List.mem_cons.1 h with rfl | h
    · exact List.subset_append_left _ _
    · exact List.subset_append_of_subset_right _ (ih h)

end TokenTree

theorem drawnFrom_flatten (trees : List TokenTree) :
    DrawnFrom (TokenTree.flatten trees) trees := fun _ => TokenTree.tokens_subset_flatten

section
variable {trees part : List TokenTree} {fallback : Option Location}

theorem DrawnFrom.of_subset (h : DrawnFrom tokens trees) (hpart : part ⊆ trees) :
    DrawnFrom tokens part := fun tree htree => h tree (hpart htree)

theorem DrawnFrom.placed {tree : TokenTree} (h : DrawnFrom tokens trees) (htree : tree ∈ trees) :
    Placed tokens (some tree.start) :=
  ⟨tree.first, h tree htree tree.first_mem_tokens, rfl⟩

theorem DrawnFrom.token {t : Token} (h : DrawnFrom tokens trees) (ht : .token t ∈ trees) :
    t ∈ tokens :=
  h _ ht (by simp [TokenTree.tokens])

theorem DrawnFrom.group {g : Group} (h : DrawnFrom tokens trees) (hg : g.tree ∈ trees) :
    g.opener ∈ tokens ∧ DrawnFrom tokens g.inner := by
  have hall := h _ hg
  rw [Group.tree, TokenTree.tokens] at hall
  refine ⟨hall List.mem_cons_self, fun tree htree t ht => hall ?_⟩
  exact List.mem_cons_of_mem _
    (List.mem_append_left _ (TokenTree.tokens_subset_flatten htree ht))

theorem placed_of_mem {t : Token} (h : t ∈ tokens) : Placed tokens (some t.start) := ⟨t, h, rfl⟩

theorem placed_placeOr (h : DrawnFrom tokens trees) (hend : trees = [] → Placed tokens fallback) :
    Placed tokens (TokenTree.placeOr fallback trees) := by
  cases trees with
  | nil => exact hend rfl
  | cons tree trees => exact h.placed List.mem_cons_self

theorem placed_endPlace (h : DrawnFrom tokens trees) (hend : trees = [] → Placed tokens fallback) :
    Placed tokens (TokenTree.endPlace fallback trees) := by
  rcases List.eq_nil_or_concat trees with rfl | ⟨front, tree, rfl⟩
  · exact hend rfl
  · rw [List.concat_eq_append] at h ⊢
    rw [TokenTree.endPlace, List.getLast?_concat]
    exact h.placed (by simp)

end

/-! ### Diagnostics -/

/-- The line and the column of the diagnostic are those of the place. -/
def Diagnostic.StandsAt (d : Diagnostic) (place : Location) : Prop :=
  d.line = some (place.line : Int) ∧ d.column = some (place.column : Int)

def Failure.PointsInto (tokens : List Token) (f : Failure) : Prop :=
  ∀ d ∈ f.toList, ∃ t ∈ tokens, d.StandsAt t.start

def Fault.PointsInto (tokens : List Token) : Fault → Prop
  | .diagnosed f => f.PointsInto tokens
  | .codePoint => True

def IsWord (tokens : List Token) (text : String) : Prop :=
  ∃ t ∈ tokens, t.kind = .ident ∧ t.text = text

/-- What the cause says of the source is a name in it; only attributes may be without a name. A
mark that is expected is one line, and nothing is said that comes from elsewhere. -/
def Cause.Quotes (tokens : List Token) : Cause → Prop
  | .missingValue key | .unexpectedValue key | .unknownOption key => IsWord tokens key
  | .notAnImpl marker => marker = "" ∨ IsWord tokens marker
  | .expected text => Text.Unbroken text
  | .badInterfaceOptions reason => reason.Quotes tokens
  | .untokenizable .. | .unterminatedComment | .invalidUtf8 .. | .unreadable _ | .stated _ => False
  | _ => True

/-- Every diagnostic stands where one of the tokens starts and quotes names among them only. -/
def Failure.Concerns (tokens : List Token) (f : Failure) : Prop :=
  ∀ d ∈ f.toList, (∃ t ∈ tokens, d.StandsAt t.start) ∧ d.cause.Quotes tokens

def Fault.Concerns (tokens : List Token) : Fault → Prop
  | .diagnosed f => f.Concerns tokens
  | .codePoint => True

theorem Failure.Concerns.pointsInto {f : Failure} (h : f.Concerns tokens) : f.PointsInto tokens :=
  fun d hd => (h d hd).1

theorem Fault.Concerns.pointsInto {fault : Fault} (h : fault.Concerns tokens) :
    fault.PointsInto tokens := by
  cases fault with
  | diagnosed f => exact Failure.Concerns.pointsInto h
  | codePoint => exact trivial

theorem Failure.concerns_single {place : Option Location} {cause : Cause}
    (h : Placed tokens place) (hcause : cause.Quotes tokens) :
    (single (.atPlace? place cause)).Concerns tokens := by
  obtain ⟨t, ht, rfl⟩ := h
  intro d hd
  rw [List.mem_singleton.1 hd]
  exact ⟨⟨t, ht, rfl, rfl⟩, hcause⟩

/-! ### Results -/

def Meets {ε α : Type} (E : ε → Prop) (Q : α → Prop) : Except ε α → Prop
  | .ok a => Q a
  | .error e => E e

section
variable {ε α β σ : Type} {E : ε → Prop} {Q : α → Prop} {R : β → Prop}

theorem Meets.bind {x : Except ε α} {f : α → Except ε β} (hx : Meets E Q x)
    (hf : ∀ a, Q a → Meets E R (f a)) : Meets E R (x >>= f) := by
  cases x with
  | ok a => exact hf a hx
  | error e => exact hx

theorem Meets.map {x : Except ε α} {f : α → β} (hx : Meets E Q x) (hf : ∀ a, Q a → R (f a)) :
    Meets E R (x.map f) := by
  cases x with
  | ok a => exact hf a hx
  | error e => exact hx

theorem Meets.of_ok {x : Except ε α} {a : α} (h : Meets E Q x) (ha : x = .ok a) : Q a := by
  rw [ha] at h
  exact h

theorem Meets.of_error {x : Except ε α} {e : ε} (h : Meets E Q x) (he : x = .error e) : E e := by
  rw [he] at h
  exact h

theorem Meets.mono {Q' : α → Prop} {x : Except ε α} (hx : Meets E Q x)
    (h : ∀ a, x = .ok a → Q a → Q' a) : Meets E Q' x := by
  cases x with
  | ok a => exact h a rfl hx
  | error e => exact hx

/-- Only the failure matters. -/
theorem Meets.any {x : Except ε α} (hx : Meets E Q x) : Meets E (fun _ => True) x :=
  hx.mono fun _ _ _ => trivial

theorem Meets.map_any {x : Except ε α} (hx : Meets E Q x) (f : α → β) :
    Meets E (fun _ => True) (x.map f) :=
  hx.map fun _ _ => trivial

theorem meets_mapM {f : α → Except ε β} {list : List α} (h : ∀ a ∈ list, Meets E R (f a)) :
    Meets E (fun values => ∀ b ∈ values, R b) (list.mapM f) := by
  induction list with
  | nil => exact List.forall_mem_nil R
  | cons a list ih =>
    obtain ⟨hfirst, hrest⟩ := List.forall_mem_cons.1 h
    rw [List.mapM_cons]
    refine hfirst.bind fun b hb => (ih hrest).bind fun values hvalues => ?_
    exact List.forall_mem_cons.2 ⟨hb, hvalues⟩

theorem meets_mapM_any {f : α → Except ε β} {list : List α}
    (h : ∀ a ∈ list, Meets E (fun _ => True) (f a)) : Meets E (fun _ => True) (list.mapM f) :=
  (meets_mapM h).any

theorem meets_forM {f : α → Except ε Unit} {list : List α}
    (h : ∀ a ∈ list, Meets E (fun _ => True) (f a)) : Meets E (fun _ => True) (list.forM f) := by
  induction list with
  | nil => exact trivial
  | cons a list ih =>
    obtain ⟨hfirst, hrest⟩ := List.forall_mem_cons.1 h
    exact hfirst.bind fun _ _ => ih hrest

theorem meets_foldlM {f : σ → α → Except ε σ} {list : List α}
    (h : ∀ s, ∀ a ∈ list, Meets E (fun _ => True) (f s a)) (s : σ) :
    Meets E (fun _ => True) (list.foldlM f s) := by
  induction list generalizing s with
  | nil => exact trivial
  | cons a list ih =>
    rw [List.foldlM_cons]
    exact (h s a List.mem_cons_self).bind fun s' _ =>
      ih (fun s a ha => h s a (List.mem_cons_of_mem _ ha)) s'

/-- A weaker demand on the failure. -/
theorem Meets.weaken {E' : ε → Prop} {x : Except ε α} (hx : Meets E Q x) (h : ∀ e, E e → E' e) :
    Meets E' Q x := by
  cases x with
  | ok a => exact hx
  | error e => exact h e hx

/-- Failures that are refused together concern tokens if each of them does. -/
theorem meets_refuse {failures : List Failure} {a : α}
    (hfailures : ∀ f ∈ failures, f.Concerns tokens) (ha : Q a) :
    Meets (Failure.Concerns tokens) Q (Failure.refuse failures a) := by
  cases failures with
  | nil => exact ha
  | cons f failures =>
    intro d hd
    obtain ⟨g, hg, hd⟩ := List.mem_flatMap.1
      (show d ∈ (f :: failures).flatMap Failure.toList from hd)
    exact hfailures g hg d hd

end

/-! ### Cursors and readers -/

/-- The cursor stands between trees of the tokens; without any trees it has a place of them. -/
structure Cursor.Anchored (tokens : List Token) (c : Cursor) : Prop where
  drawn : DrawnFrom tokens c.trees
  placed : c.trees = [] → Placed tokens c.anchor

namespace Cursor

variable {c : Cursor}

theorem anchored_ofTrees {trees : List TokenTree} (anchor : Option Location)
    (h : DrawnFrom tokens trees) (hanchor : trees = [] → Placed tokens anchor) :
    (ofTrees trees anchor).Anchored tokens :=
  ⟨h, hanchor⟩

theorem Anchored.skip (h : c.Anchored tokens) (n : Nat) : (c.skip n).Anchored tokens := by
  constructor
  · rw [trees_skip]
    exact h.drawn
  · rw [trees_skip]
    exact h.placed

theorem Anchored.rest (h : c.Anchored tokens) : DrawnFrom tokens c.rest :=
  h.drawn.of_subset (List.subset_append_right _ _)

theorem Anchored.past (h : c.Anchored tokens) : DrawnFrom tokens c.past :=
  h.drawn.of_subset fun _ htree => List.mem_append_left _ (List.mem_reverse.2 htree)

theorem Anchored.placed_place (h : c.Anchored tokens) : Placed tokens c.place := by
  refine placed_placeOr h.rest fun hrest => placed_placeOr h.past fun hpast => h.placed ?_
  rw [trees, hrest, hpast]
  rfl

theorem Anchored.failure {cause : Cause} (h : c.Anchored tokens) (hcause : cause.Quotes tokens) :
    (c.failure cause).Concerns tokens :=
  Failure.concerns_single h.placed_place hcause

end Cursor

namespace Reader

variable {α β : Type} {Q : α → Prop} {R : β → Prop}

/-- What is read is as it should be, with the cursor between trees of the tokens, or else the
failure is at one of the tokens. -/
def Kept (tokens : List Token) (Q : α → Prop) : EStateM.Result Failure Cursor α → Prop
  | .ok a c => Q a ∧ c.Anchored tokens
  | .error f _ => f.Concerns tokens

/-- From every cursor between trees of the tokens the reader keeps to them. -/
def Keeps (tokens : List Token) (Q : α → Prop) (reader : Reader α) : Prop :=
  ∀ c : Cursor, c.Anchored tokens → Kept tokens Q (reader c)

theorem keeps_pure {a : α} (h : Q a) : Keeps tokens Q (pure a) := fun _ hc => ⟨h, hc⟩

theorem Keeps.bind {x : Reader α} {f : α → Reader β} (hx : x.Keeps tokens Q)
    (hf : ∀ a, Q a → (f a).Keeps tokens R) : (x >>= f).Keeps tokens R := by
  intro c hc
  have hfirst := hx c hc
  change Kept tokens R (EStateM.bind x f c)
  rw [EStateM.bind]
  cases hresult : x c with
  | ok a c' =>
    rw [hresult] at hfirst
    exact hf a hfirst.1 c' hfirst.2
  | error e c' =>
    rw [hresult] at hfirst
    exact hfirst

/-- Only the failure matters. -/
theorem Keeps.any {x : Reader α} (hx : x.Keeps tokens Q) : x.Keeps tokens fun _ => True := by
  intro c hc
  have hread := hx c hc
  cases hresult : x c with
  | ok a c' =>
    rw [hresult] at hread
    exact ⟨trivial, hread.2⟩
  | error f c' =>
    rw [hresult] at hread
    exact hread

theorem keeps_throw {f : Failure} (h : f.Concerns tokens) :
    Keeps tokens Q (throw f : Reader α) := fun _ _ => h

theorem keeps_fail {cause : Cause} (h : cause.Quotes tokens) :
    Keeps tokens Q (fail cause : Reader α) :=
  fun _ hc => hc.failure h

theorem keeps_ofExcept {x : Except Failure α} (h : Meets (Failure.Concerns tokens) Q x) :
    Keeps tokens Q (ofExcept x) := by
  intro c hc
  cases x with
  | ok a => exact ⟨h, hc⟩
  | error f => exact h

theorem keeps_sees (p : TokenTree → Bool) : Keeps tokens (fun _ => True) (sees p) :=
  fun _ hc => ⟨trivial, hc⟩

theorem keeps_next : Keeps tokens (fun _ => True) next := by
  intro c hc
  rw [next]
  split
  · exact hc.failure trivial
  · exact ⟨trivial, hc.skip 1⟩

theorem keeps_rest : Keeps tokens (DrawnFrom tokens) rest :=
  fun c hc => ⟨hc.rest, hc.skip c.rest.length⟩

theorem keeps_takeUntil (p : TokenTree → Bool) :
    Keeps tokens (DrawnFrom tokens) (takeUntil p) :=
  fun _ hc => ⟨hc.rest.of_subset (List.takeWhile_subset _), hc.skip _⟩

theorem keeps_eat (p : Token → Bool) :
    Keeps tokens (fun found => ∀ t ∈ found, t ∈ tokens) (eat p) := by
  intro c hc
  rw [eat]
  cases hpeek : (c.peek 0).bind (TokenTree.token? p) with
  | none => exact ⟨nofun, hc⟩
  | some t =>
    obtain ⟨tree, hnext, htoken⟩ := Option.bind_eq_some_iff.1 hpeek
    obtain ⟨rfl, -⟩ := TokenTree.token?_eq_some htoken
    refine ⟨fun u hu => ?_, hc.skip 1⟩
    cases hu
    exact hc.rest.token (List.mem_of_getElem? hnext)

theorem keeps_eatWord (name : String) : Keeps tokens (fun _ => True) (eatWord name) :=
  (keeps_eat _).bind fun _ _ => keeps_pure trivial

theorem keeps_expectPunct (text : String) (h : (Cause.expected text).Quotes tokens) :
    Keeps tokens (· ∈ tokens) (expectPunct text) := by
  refine (keeps_eat _).bind fun found hfound => ?_
  cases found with
  | none => exact keeps_fail h
  | some t => exact keeps_pure (hfound t rfl)

theorem keeps_expectIdent (name : Option String) (h : (missingIdent name).Quotes tokens) :
    Keeps tokens (· ∈ tokens) (expectIdent name) := by
  have heat : Keeps tokens (fun found => ∀ t ∈ found, t ∈ tokens) (eatIdent name) := by
    cases name <;> exact keeps_eat _
  refine heat.bind fun found hfound => ?_
  cases found with
  | none => exact keeps_fail h
  | some t => exact keeps_pure (hfound t rfl)

theorem keeps_expectGroup (delimiter : Delimiter) :
    Keeps tokens (fun g => DrawnFrom tokens [g.tree]) (expectGroup delimiter) := by
  intro c hc
  rw [expectGroup]
  cases hpeek : (c.peek 0).bind (TokenTree.group? delimiter) with
  | none => exact hc.failure (by cases delimiter <;> rfl)
  | some g =>
    obtain ⟨tree, hnext, hgroup⟩ := Option.bind_eq_some_iff.1 hpeek
    obtain ⟨-, rfl⟩ := TokenTree.group?_eq_some hgroup
    refine ⟨hc.rest.of_subset fun tree htree => ?_, hc.skip 1⟩
    rw [List.mem_singleton.1 htree]
    exact List.mem_of_getElem? hnext

theorem keeps_get {x : Cursor → Reader α}
    (h : ∀ c : Cursor, c.Anchored tokens → Kept tokens Q (x c c)) :
    Keeps tokens Q (get >>= x : Reader α) := h

theorem keeps_angleList : Keeps tokens (fun _ => True) angleList := by
  refine (keeps_expectPunct "<" rfl).bind fun opening _ => keeps_get fun c hc => ?_
  cases TokenTree.throughAngle 1 c.rest with
  | some split => exact ⟨trivial, hc.skip _⟩
  | none => exact (hc.skip _).failure trivial

theorem keeps_optionalAngleList : Keeps tokens (fun _ => True) optionalAngleList := by
  refine (keeps_sees _).bind fun isAhead _ => ?_
  split
  · exact keeps_angleList
  · exact keeps_pure trivial

end Reader
end LuaBindings
