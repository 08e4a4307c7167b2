import LuaBindings.Options
import LuaBindings.Proofs.Options.Rereading
import LuaBindings.Proofs.Places.Declarations

/-!
# Where options fail

The entries of an option attribute keep the tokens of their key, their separator and their
opening parenthesis. A failure to read the entries is at one of the tokens of the text, and so
is a failure to make options of them.
-/

set_option autoImplicit false

namespace LuaBindings

variable {tokens : List Token}

/-! ### Entries -/

namespace OptionEntry

/-- The key of the entry is a name among the tokens of the text, and what begins the value or the
list behind it is one of them; likewise for the entries of the list. -/
inductive Anchored (tokens : List Token) : OptionEntry → Prop
  | bare {name : Token} (hname : name ∈ tokens ∧ name.kind = .ident) : Anchored tokens (.bare name)
  | single {name separator : Token} {value : OptionValue}
    (hname : name ∈ tokens ∧ name.kind = .ident)
    (hseparator : separator ∈ tokens) : Anchored tokens (.single name separator value)
  | list {name opener : Token} {entries : List OptionEntry}
    (hname : name ∈ tokens ∧ name.kind = .ident)
    (hopener : opener ∈ tokens) (hentries : ∀ e ∈ entries, Anchored tokens e) :
    Anchored tokens (.list name opener entries)

theorem Anchored.name_mem {e : OptionEntry} (h : e.Anchored tokens) :
    e.name ∈ tokens ∧ e.name.kind = .ident := by
  cases h with
  | bare hname => exact hname
  | single hname => exact hname
  | list hname => exact hname

theorem Anchored.isWord {e : OptionEntry} (h : e.Anchored tokens) : IsWord tokens e.key :=
  ⟨e.name, h.name_mem.1, h.name_mem.2, rfl⟩

theorem Anchored.anchor_mem {e : OptionEntry} (h : e.Anchored tokens) :
    ∀ t, e.anchor? = some t → t ∈ tokens := by
  cases h with
  | bare => exact nofun
  | single _ hseparator =>
    rintro t ⟨⟩
    exact hseparator
  | list _ hopener =>
    rintro t ⟨⟩
    exact hopener

section
variable {trees : List TokenTree} {fallback : Option Location}

theorem meets_refuseAt {α : Type} {Q : α → Prop} {cause : Cause} (h : DrawnFrom tokens trees)
    (hend : trees = [] → Placed tokens fallback) (hcause : cause.Quotes tokens) :
    Meets (Failure.Concerns tokens) Q (refuse fallback trees cause) :=
  Failure.concerns_single (placed_placeOr h hend) hcause

theorem meets_pathTail (h : DrawnFrom tokens trees) (hend : Placed tokens fallback) :
    Meets (Failure.Concerns tokens) (fun _ => True) (pathTail fallback trees) := by
  fun_induction pathTail fallback trees with
  | case1 => exact trivial
  | case2 => exact trivial
  | case3 => exact meets_refuseAt (List.forall_mem_nil _) (fun _ => hend) trivial
  | case4 =>
    exact meets_refuseAt (h.of_subset (List.subset_cons_self _ _)) (fun _ => hend) trivial
  | case5 tree colons _ segmentTree rest segment _ f heq ih =>
    rw [heq] at ih
    exact ih (h.of_subset fun _ htree => List.mem_cons_of_mem _ (List.mem_cons_of_mem _ htree))
  | case6 => exact trivial

theorem meets_readValue (h : DrawnFrom tokens trees) (hend : Placed tokens fallback) :
    Meets (Failure.Concerns tokens) (fun _ => True) (readValue fallback trees) := by
  have hrefuse : Meets (Failure.Concerns tokens) (fun _ : OptionValue × List TokenTree => True)
      (refuse fallback trees .expectedOptionValue) := meets_refuseAt h (fun _ => hend) trivial
  unfold readValue
  split
  · rename_i t rest
    have htail := meets_pathTail (h.of_subset (List.subset_cons_self _ _)) hend
    split
    · split
      · rename_i heq
        rw [heq] at htail
        exact htail
      · exact trivial
      · exact trivial
    · split
      · exact trivial
      · split
        · split
          · exact trivial
          · exact hrefuse
        · exact hrefuse
  · exact hrefuse

inductive Given.Anchored (tokens : List Token) : Given → Prop
  | nothing {after : List TokenTree} : Anchored tokens (.nothing after)
  | single {separator : Token} {value : OptionValue} {after : List TokenTree}
    (hseparator : separator ∈ tokens) : Anchored tokens (.single separator value after)
  | list {g : Group} {after : List TokenTree} (hg : DrawnFrom tokens [g.tree]) :
    Anchored tokens (.list g after)

theorem meets_readGiven (h : DrawnFrom tokens trees) (hend : Placed tokens fallback) :
    Meets (Failure.Concerns tokens)
      (fun given => given.Anchored tokens ∧ given.after <:+ trees)
      (readGiven fallback trees) := by
  cases trees with
  | nil => exact ⟨.nothing, List.suffix_refl _⟩
  | cons tree rest =>
    have hrest := h.of_subset (List.subset_cons_self tree rest)
    rw [readGiven]
    cases hseparator : tree.token? (fun t => t.isPunct ":" || t.isPunct "=") with
    | some separator =>
      obtain ⟨rfl, -⟩ := TokenTree.token?_eq_some hseparator
      have hvalue := meets_readValue hrest hend
      cases hread : readValue fallback rest with
      | error f =>
        rw [hread] at hvalue
        exact hvalue
      | ok read =>
        exact ⟨.single (h.token List.mem_cons_self),
          (readValue_suffix hread).trans (List.suffix_cons _ _)⟩
    | none =>
      cases hgroup : tree.group? .paren with
      | some g =>
        obtain ⟨-, rfl⟩ := TokenTree.group?_eq_some hgroup
        have hg : DrawnFrom tokens [g.tree] :=
          h.of_subset (List.cons_subset.2 ⟨List.mem_cons_self, List.nil_subset _⟩)
        exact ⟨.list hg, List.suffix_cons _ _⟩
      | none => exact ⟨.nothing, List.suffix_refl _⟩

theorem meets_afterComma (h : DrawnFrom tokens trees) :
    Meets (Failure.Concerns tokens) (· <:+ trees) (afterComma trees) := by
  cases trees with
  | nil => exact List.suffix_refl _
  | cons tree rest =>
    rw [afterComma]
    split
    · exact List.suffix_cons _ _
    · exact meets_refuseAt h nofun rfl

theorem Given.Anchored.entry {given : Given} {name : Token} (h : given.Anchored tokens)
    (hname : name ∈ tokens ∧ name.kind = .ident)
    (hargs : ∀ g : Group, TokenTree.count g.inner ≤ given.count → DrawnFrom tokens [g.tree] →
      Meets (Failure.Concerns tokens) (fun entries => ∀ e ∈ entries, e.Anchored tokens)
        (ofArguments g)) :
    Meets (Failure.Concerns tokens) (OptionEntry.Anchored tokens) (given.entry name) := by
  cases h with
  | nothing => exact OptionEntry.Anchored.bare hname
  | single hseparator => exact OptionEntry.Anchored.single hname hseparator
  | list hg =>
    obtain ⟨hopener, -⟩ := hg.group (List.mem_singleton_self _)
    exact (hargs _ (Nat.le_add_right _ _) hg).map fun entries hentries =>
      .list hname hopener hentries

/-- By induction on the number of tokens, since lists of entries stand inside of entries. -/
theorem meets_readFrom (h : DrawnFrom tokens trees) (hend : trees ≠ [] → Placed tokens fallback) :
    Meets (Failure.Concerns tokens) (fun entries => ∀ e ∈ entries, e.Anchored tokens)
      (readFrom fallback trees) := by
  induction hcount : TokenTree.count trees using Nat.strongRecOn generalizing trees fallback with
  | ind n ih =>
    subst hcount
    cases trees with
    | nil =>
      rw [readFrom]
      exact List.forall_mem_nil _
    | cons tree rest =>
      have hplaced := hend (List.cons_ne_nil _ _)
      cases hname : tree.token? (·.kind == .ident) with
      | none =>
        rw [readFrom, hname]
        exact meets_refuseAt h (fun _ => hplaced) trivial
      | some name =>
        have hrest := h.of_subset (List.subset_cons_self tree rest)
        rw [readFrom_cons hname]
        obtain ⟨rfl, hkind⟩ := TokenTree.token?_eq_some hname
        have hword := And.intro (h.token List.mem_cons_self) (beq_iff_eq.1 hkind)
        have hlt := TokenTree.count_lt_cons (.token name) rest
        have hgiven := (meets_readGiven hrest hplaced).mono
          fun given hread hkept => And.intro (count_readGiven hread) hkept
        refine hgiven.bind fun given ⟨hcount, hkept, hafter⟩ => ?_
        have hentry := hkept.entry hword fun g hle hg => by
          obtain ⟨-, hinner⟩ := hg.group (List.mem_singleton_self _)
          exact ih _ (Nat.lt_of_le_of_lt (Nat.le_trans hle hcount) hlt) hinner
            (fun hne => placed_endPlace hinner fun hnil => absurd hnil hne) rfl
        refine hentry.bind fun entry hanchored => ?_
        have hcomma := meets_afterComma (hrest.of_subset hafter.subset)
        refine hcomma.bind fun more hmore => ?_
        have hsuffix := hmore.trans hafter
        have hothers := ih _
          (Nat.lt_of_le_of_lt (TokenTree.count_le_of_sublist hsuffix.sublist) hlt)
          (hrest.of_subset hsuffix.subset) (fun _ => hplaced) rfl
        exact hothers.bind fun entries hentries => List.forall_mem_cons.2 ⟨hanchored, hentries⟩

/-- The entries of a group of arguments. An empty group has none, so its anchor is not needed. -/
theorem meets_ofArguments {g : Group} (h : DrawnFrom tokens [g.tree]) :
    Meets (Failure.Concerns tokens) (fun entries => ∀ e ∈ entries, e.Anchored tokens)
      (ofArguments g) := by
  obtain ⟨hopener, hinner⟩ := h.group (List.mem_singleton_self _)
  exact meets_readFrom hinner fun hne => placed_endPlace hinner fun hnil => absurd hnil hne

end
end OptionEntry

/-! ### Names and switches -/

namespace Fault

variable {α : Type} {Q : α → Prop}

theorem meets_atPlace {place : Location} {cause : Cause} (h : Placed tokens (some place))
    (hcause : cause.Quotes tokens) : Meets (Concerns tokens) Q (atPlace place cause) :=
  Failure.concerns_single h hcause

theorem meets_ofExcept {x : Except Failure α} (h : Meets (Failure.Concerns tokens) Q x) :
    Meets (Concerns tokens) Q (ofExcept x) := by
  cases x with
  | ok a => exact h
  | error f => exact h

end Fault

namespace OptionEntry

variable {e : OptionEntry}

theorem Anchored.nameValue (h : e.Anchored tokens) (cause : Cause)
    (hcause : cause.Quotes tokens) :
    Meets (Fault.Concerns tokens) (fun _ => True) (e.nameValue cause) := by
  cases h with
  | bare hname => exact Fault.meets_atPlace (placed_of_mem hname.1) ⟨_, hname.1, hname.2, rfl⟩
  | list _ hopener => exact Fault.meets_atPlace (placed_of_mem hopener) hcause
  | single _ hseparator =>
    have hrefused : Meets (Fault.Concerns tokens) (fun _ : String => True) _ :=
      Fault.meets_atPlace (placed_of_mem hseparator) hcause
    rw [OptionEntry.nameValue]
    split
    · exact trivial
    · split
      · split <;> exact trivial
      · exact hrefused
    · exact hrefused

theorem Anchored.requireBare (h : e.Anchored tokens) :
    Meets (Fault.Concerns tokens) (fun _ => True) e.requireBare := by
  rw [OptionEntry.requireBare]
  cases hanchor : e.anchor? with
  | none => exact trivial
  | some anchor => exact Fault.meets_atPlace (placed_of_mem (h.anchor_mem anchor hanchor)) h.isWord

theorem Anchored.unknown {α : Type} (h : e.Anchored tokens) :
    Meets (Fault.Concerns tokens) (fun _ : α => True) e.unknown :=
  Fault.meets_atPlace (placed_of_mem h.name_mem.1) h.isWord

end OptionEntry

/-! ### Options -/

theorem Attribute.Anchored.entries {a : Attribute} (h : a.Anchored tokens) :
    Meets (Fault.Concerns tokens) (fun entries => ∀ e ∈ entries, e.Anchored tokens)
      a.entries := by
  rw [Attribute.entries]
  cases hargs : a.args with
  | none => exact Fault.meets_atPlace h.placed trivial
  | some g => exact Fault.meets_ofExcept (OptionEntry.meets_ofArguments (h.args g hargs))

section
variable {e : OptionEntry} {entries : List OptionEntry}

theorem FunctionOptions.meets_ofEntries (h : ∀ e ∈ entries, e.Anchored tokens) :
    Meets (Fault.Concerns tokens) (fun _ => True) (ofEntries entries) := by
  refine meets_foldlM (fun options e he => ?_) _
  rw [apply]
  split
  · exact (h e he).requireBare.map_any _
  · exact (h e he).unknown

theorem ItemOptions.meets_functionOptions (h : e.Anchored tokens) :
    Meets (Fault.Concerns tokens) (fun _ => True) (functionOptions e) := by
  cases h with
  | bare => exact trivial
  | single _ hseparator => exact Fault.meets_atPlace (placed_of_mem hseparator) trivial
  | list _ _ hentries => exact FunctionOptions.meets_ofEntries hentries

theorem ItemOptions.meets_ofEntries (h : ∀ e ∈ entries, e.Anchored tokens) :
    Meets (Fault.Concerns tokens) (fun _ => True) (ofEntries entries) := by
  refine meets_foldlM (fun options e he => ?_) _
  rw [apply]
  split
  · exact (meets_functionOptions (h e he)).bind fun _ _ => trivial
  · split
    · exact (h e he).requireBare.bind fun _ _ => trivial
    · split
      · exact ((h e he).nameValue .badRename trivial).bind fun _ _ => trivial
      · split
        · exact (h e he).requireBare.bind fun _ _ => trivial
        · exact (h e he).unknown

theorem ItemOptions.meets_ofAttributes {attributes : List Attribute}
    (h : ∀ a ∈ attributes, a.Anchored tokens) :
    Meets (Fault.Concerns tokens) (fun _ => True) (ofAttributes attributes) := by
  rw [ofAttributes]
  cases hfind : attributes.find? Attribute.isOptions with
  | none => exact trivial
  | some a => exact (h a (List.mem_of_find?_eq_some hfind)).entries.bind fun _ => meets_ofEntries

theorem ParameterOptions.meets_ofAttributes {attributes : List Attribute}
    (h : ∀ a ∈ attributes, a.Anchored tokens) :
    Meets (Fault.Concerns tokens) (fun _ => True) (ofAttributes attributes) := by
  refine meets_foldlM (fun options a ha => ?_) _
  refine (h a (List.mem_of_mem_filter ha)).entries.bind fun entries hentries => ?_
  refine meets_foldlM (fun options e he => ?_) _
  rw [apply]
  split
  · exact (hentries e he).requireBare.bind fun _ _ => trivial
  · exact (hentries e he).unknown

/-- Entries of an interface that cannot be read are reported where they cannot be read. -/
theorem InterfaceOptions.meets_readEntries {g : Group} (h : DrawnFrom tokens [g.tree]) :
    Meets (Failure.Concerns tokens) (fun entries => ∀ e ∈ entries, e.Anchored tokens)
      (readEntries g) := by
  have hread := OptionEntry.meets_ofArguments h
  rw [readEntries]
  cases hresult : OptionEntry.ofArguments g with
  | ok entries =>
    rw [hresult] at hread
    exact hread
  | error f =>
    rw [hresult] at hread
    obtain ⟨hstands, hquotes⟩ := hread f.first List.mem_cons_self
    exact List.forall_mem_singleton.2 ⟨hstands, hquotes⟩

theorem InterfaceOptions.meets_ofArguments {args : Option Group}
    (h : ∀ g ∈ args, DrawnFrom tokens [g.tree]) :
    Meets (Fault.Concerns tokens) (fun _ => True) (ofArguments args) := by
  cases args with
  | none => exact trivial
  | some g =>
    refine (Fault.meets_ofExcept (meets_readEntries (h g rfl))).bind fun entries hentries => ?_
    refine meets_foldlM (fun options e he => ?_) _
    rw [apply]
    split
    · exact ((hentries e he).nameValue .badInterfaceName trivial).bind fun _ _ => trivial
    · exact (hentries e he).unknown

end
end LuaBindings
