import LuaBindings.Proofs.TokenTree.Renaming

/-!
# One renaming after another

Renaming replaces all names of a tree at once, so one renaming after another is the renaming by
the table that leads from name to name through both (`renamings_compose`). It touches the texts of
identifiers and nothing else.
-/

set_option autoImplicit false

namespace LuaBindings.Renaming

open TokenTree

/-- The table that leads through two tables, one after the other. -/
def andThen (f g : Renaming) : Renaming := (f.map fun entry => (entry.1, g.name entry.2)) ++ g

def exchange (a b : String) : Renaming := [(a, b), (b, a)]

/-! ### Names -/

theorem name_nil (old : String) : name [] old = old := rfl

theorem name_cons_self (key new : String) (table : Renaming) :
    name ((key, new) :: table) key = new := by
  rw [name, List.lookup_cons_self, Option.getD_some]

theorem name_cons_ne {key old : String} (new : String) (table : Renaming) (h : old ≠ key) :
    name ((key, new) :: table) old = table.name old := by
  have hkey : (old == key) = false := beq_false_of_ne h
  rw [name, List.lookup_cons, hkey, name]

theorem name_andThen (f g : Renaming) (old : String) :
    (f.andThen g).name old = g.name (f.name old) := by
  induction f with
  | nil => rfl
  | cons entry f ih =>
    obtain ⟨key, new⟩ := entry
    have hcons : andThen ((key, new) :: f) g = (key, g.name new) :: andThen f g := rfl
    by_cases h : old = key
    · rw [hcons, h, name_cons_self, name_cons_self]
    · rw [hcons, name_cons_ne _ _ h, name_cons_ne _ _ h, ih]

theorem name_exchange (a b old : String) :
    (exchange a b).name ((exchange a b).name old) = old := by
  have hleft : (exchange a b).name a = b := name_cons_self a b _
  -- The first entry for a name counts, so it matters whether the two are one name.
  have hright : (exchange a b).name b = a := by
    by_cases h : b = a
    · rw [h] at hleft ⊢
      exact hleft
    · rw [exchange, name_cons_ne _ _ h, name_cons_self]
  by_cases ha : old = a
  · rw [ha, hleft, hright]
  by_cases hb : old = b
  · rw [hb, hright, hleft]
  · have hother : (exchange a b).name old = old := by
      rw [exchange, name_cons_ne _ _ ha, name_cons_ne _ _ hb, name_nil]
    rw [hother, hother]

/-! ### Tokens and trees -/

/-- A token before and after a renaming: only the text of an identifier changes. -/
structure Renames (table : Renaming) (before after : Token) : Prop where
  kind : after.kind = before.kind
  start : after.start = before.start
  stop : after.stop = before.stop
  text : after.text = if before.kind = .ident then table.name before.text else before.text

theorem renames_token (table : Renaming) (t : Token) : table.Renames t (table.token t) := by
  unfold token
  split
  · rename_i hident
    exact ⟨rfl, rfl, rfl, (if_pos hident).symm⟩
  · rename_i hother
    exact ⟨rfl, rfl, rfl, (if_neg hother).symm⟩

variable {f g h : Renaming}

theorem token_token (hname : ∀ x, h.name x = g.name (f.name x)) (t : Token) :
    g.token (f.token t) = h.token t := by
  by_cases hident : t.kind = .ident
  · simp only [token, hident, ↓reduceIte, hname]
  · simp only [token, hident, ↓reduceIte]

theorem token_of_name (hname : ∀ x, f.name x = x) (t : Token) : f.token t = t := by
  unfold token
  split
  · rw [hname]
  · rfl

theorem trees_trees (hname : ∀ x, h.name x = g.name (f.name x)) :
    ∀ trees : List TokenTree, g.trees (f.trees trees) = h.trees trees
  | [] => by simp only [Renaming.trees]
  | .token t :: rest => by
    simp only [Renaming.trees, Renaming.tree, token_token hname, trees_trees hname rest]
  | .group _ _ inner _ :: rest => by
    simp only [Renaming.trees, Renaming.tree, token_token hname, trees_trees hname inner,
      trees_trees hname rest]

theorem trees_of_name (hname : ∀ x, f.name x = x) :
    ∀ trees : List TokenTree, f.trees trees = trees
  | [] => by simp only [Renaming.trees]
  | .token t :: rest => by
    simp only [Renaming.trees, Renaming.tree, token_of_name hname, trees_of_name hname rest]
  | .group _ _ inner _ :: rest => by
    simp only [Renaming.trees, Renaming.tree, token_of_name hname, trees_of_name hname inner,
      trees_of_name hname rest]

theorem flatten_trees (f : Renaming) (trees : List TokenTree) :
    flatten (f.trees trees) = (flatten trees).map f.token :=
  (aligned_trees f trees).flatten_eq

theorem trees_singleton (table : Renaming) (tree : TokenTree) :
    table.trees [tree] = [table.tree tree] := by
  rw [Renaming.trees, Renaming.trees]

/-- Renaming by one table and then by another is renaming by any table that leads from each name
to where the two lead it, and there is such a table. A renaming keeps the groups and the tokens of
a tree, except for the texts of identifiers, and the tokens of the renamed tree are the renamed
tokens. Exchanging two names twice gives the tree back. -/
theorem renamings_compose (f g : Renaming) :
    (∀ h : Renaming, (∀ x, h.name x = g.name (f.name x)) →
      (∀ tree, g.tree (f.tree tree) = h.tree tree) ∧
        ∀ trees, g.trees (f.trees trees) = h.trees trees) ∧
    (∀ x, (f.andThen g).name x = g.name (f.name x)) ∧
    (∀ trees, Aligned f.Renames trees (f.trees trees)) ∧
    (∀ trees, flatten (f.trees trees) = (flatten trees).map f.token) ∧
    ∀ a b tree, (exchange a b).tree ((exchange a b).tree tree) = tree := by
  refine ⟨fun h hname => ⟨fun tree => ?_, trees_trees hname⟩, name_andThen f g, fun trees => ?_,
    flatten_trees f, fun a b tree => ?_⟩
  · have hsingle := trees_trees hname [tree]
    simp only [trees_singleton] at hsingle
    exact List.singleton_inj.1 hsingle
  · refine (aligned_trees f trees).mono fun t u heq => ?_
    rw [heq]
    exact renames_token f t
  · have hself : ∀ x, name [] x = (exchange a b).name ((exchange a b).name x) := fun x =>
      (name_exchange a b x).symm
    have htwice := (trees_trees hself [tree]).trans (trees_of_name (fun _ => rfl) [tree])
    simp only [trees_singleton] at htwice
    exact List.singleton_inj.1 htwice

/-- Names that lead to one another, so that renaming again would go on, and one in a group. -/
theorem renamings_compose_chain :
    let f : Renaming := [("a", "b"), ("b", "c")]
    let g : Renaming := [("c", "a")]
    let name (text : String) : TokenTree := .token ⟨.ident, text, ⟨1, 1, 2⟩, ⟨2, 1, 3⟩⟩
    let group (inner : List TokenTree) : TokenTree :=
      .group .paren ⟨.opener .paren, "(", ⟨0, 1, 1⟩, ⟨1, 1, 2⟩⟩ inner
        ⟨.closer .paren, ")", ⟨2, 1, 3⟩, ⟨3, 1, 4⟩⟩
    (f.andThen g).trees [name "a", group [name "b"], name "c"] =
        [name "b", group [name "a"], name "a"] ∧
      g.trees (f.trees [name "a", group [name "b"], name "c"]) =
        [name "b", group [name "a"], name "a"] := by
  intro f g name group
  obtain ⟨hcompose, hname, _⟩ := renamings_compose f g
  have hboth : (f.andThen g).trees [name "a", group [name "b"], name "c"] =
      [name "b", group [name "a"], name "a"] := by
    rfl
  exact ⟨hboth, ((hcompose (f.andThen g) hname).2 _).trans hboth⟩

end LuaBindings.Renaming
