import LuaBindings.Proofs.RustType.Syntax
import LuaBindings.Proofs.TokenTree.Angles

/-!
# The marks in the trees of a type

The trees of a type have balanced angle brackets and no comma outside of them, so the
commas of a list cut it where one type ends and the next begins. None of them binds
an associated type.
-/

set_option autoImplicit false

namespace LuaBindings.RustType

open TokenTree

theorem inert_name (name : Token.OfKind .ident) : Inert (.token name.1) :=
  .of_kind (by rw [name.2]; decide)

/-! ### Brackets and commas -/

mutual

theorem TypeSyntax.whole : ∀ t : TypeSyntax, Whole t.trees
  | .reference amp lifetime mutWord elem => by
    rw [TypeSyntax.trees]
    exact (Inert.of_mark amp (by decide)).cons_whole
      ((Inert.whole (inert_lifetime lifetime)).append
        ((Inert.whole (inert_mut mutWord)).append elem.whole))
  | .path leading segments => by
    rw [TypeSyntax.trees]
    exact (Inert.whole (inert_colons leading)).append segments.whole
  | .tuple opener elems closer => Inert.cons_whole (.of_group _ _ _ _) .nil
  | .brackets opener inner closer => Inert.cons_whole (.of_group _ _ _ _) .nil

theorem PathSyntax.whole : ∀ p : PathSyntax, Whole p.trees
  | .last segment => segment.whole
  | .cons segment colons rest => by
    rw [PathSyntax.trees]
    exact segment.whole.append ((Inert.of_mark colons (by decide)).cons_whole rest.whole)

theorem SegmentSyntax.whole : ∀ s : SegmentSyntax, Whole s.trees
  | .plain name => (inert_name name).cons_whole .nil
  | .applied name turbofish opening args closing => by
    rw [SegmentSyntax.trees]
    exact (inert_name name).cons_whole ((Inert.whole (inert_colons turbofish)).append
      (.angle (isPunct_mark opening) args.balanced (isPunct_mark closing) .nil))

theorem ArgsSyntax.balanced : ∀ args : ArgsSyntax, Balanced args.trees
  | .nil => .nil
  | .last arg => arg.whole.balanced
  | .cons arg comma rest => by
    rw [ArgsSyntax.trees]
    have hcomma := isPunct_mark comma
    exact arg.whole.balanced.append (.plain (TokenTree.isPunct_eq_false hcomma (by decide))
      (TokenTree.isPunct_eq_false hcomma (by decide)) rest.balanced)

theorem ArgSyntax.whole : ∀ arg : ArgSyntax, Whole arg.trees
  | .lifetime name => (Inert.of_kind (by rw [name.2]; decide)).cons_whole .nil
  | .type t => t.whole

end

def Unbound (xs : List TokenTree) : Prop := ∀ tree ∈ xs, tree.isPunct "=" = false

theorem Unbound.append {xs ys : List TokenTree} (hx : Unbound xs) (hy : Unbound ys) :
    Unbound (xs ++ ys) :=
  List.forall_mem_append.2 ⟨hx, hy⟩

theorem Unbound.cons {tree : TokenTree} {xs : List TokenTree} (h : tree.isPunct "=" = false)
    (hx : Unbound xs) : Unbound (tree :: xs) :=
  List.forall_mem_cons.2 ⟨h, hx⟩

theorem Unbound.nil : Unbound [] := fun _ h => absurd h List.not_mem_nil

theorem Inert.unbound {xs : List TokenTree} (h : ∀ tree ∈ xs, Inert tree) : Unbound xs :=
  fun tree htree => h tree htree _ (by simp)

theorem unbound_mark {text : String} (m : Token.Mark text) (h : "=" ≠ text) :
    (TokenTree.token m.1).isPunct "=" = false :=
  TokenTree.isPunct_eq_false (isPunct_mark m) h

mutual

theorem TypeSyntax.unbound : ∀ t : TypeSyntax, Unbound t.trees
  | .reference amp lifetime mutWord elem => by
    rw [TypeSyntax.trees]
    exact .cons (unbound_mark amp (by decide)) ((Inert.unbound (inert_lifetime lifetime)).append
      ((Inert.unbound (inert_mut mutWord)).append elem.unbound))
  | .path leading segments => by
    rw [TypeSyntax.trees]
    exact (Inert.unbound (inert_colons leading)).append segments.unbound
  | .tuple opener elems closer => .cons rfl .nil
  | .brackets opener inner closer => .cons rfl .nil

theorem PathSyntax.unbound : ∀ p : PathSyntax, Unbound p.trees
  | .last segment => segment.unbound
  | .cons segment colons rest => by
    rw [PathSyntax.trees]
    exact segment.unbound.append (.cons (unbound_mark colons (by decide)) rest.unbound)

theorem SegmentSyntax.unbound : ∀ s : SegmentSyntax, Unbound s.trees
  | .plain name => .cons (inert_name name _ (by simp)) .nil
  | .applied name turbofish opening args closing => by
    rw [SegmentSyntax.trees]
    exact .cons (inert_name name _ (by simp)) ((Inert.unbound (inert_colons turbofish)).append
      (.cons (unbound_mark opening (by decide))
        (args.unbound.append (.cons (unbound_mark closing (by decide)) .nil))))

theorem ArgsSyntax.unbound : ∀ args : ArgsSyntax, Unbound args.trees
  | .nil => .nil
  | .last arg => arg.unbound
  | .cons arg comma rest => by
    rw [ArgsSyntax.trees]
    exact arg.unbound.append (.cons (unbound_mark comma (by decide)) rest.unbound)

theorem ArgSyntax.unbound : ∀ arg : ArgSyntax, Unbound arg.trees
  | .lifetime name => .cons (isPunct_eq_false_of_kind (by rw [name.2]; decide) _) .nil
  | .type t => t.unbound

end

end LuaBindings.RustType
