import LuaBindings.Adapter.Setup
import LuaBindings.Declaration.Search
import LuaBindings.Proofs.Cursor
import LuaBindings.Signature.Classification

/-!
# What the setup of an adapter binds

The statements of a setup bind names one after the other, and a later binding hides an earlier
one. The guards of the handles are bound among the parameters. So every parameter ends as its
own value just if no guard is called like a parameter (`hygienic_iff_apart`).
-/

set_option autoImplicit false

namespace LuaBindings

/-- The names that a method declares, the context's among them. -/
def Signature.parameterNames (s : Signature) : List String :=
  s.context.toList.map ContextBinding.name ++ s.args.map Argument.name

namespace Adapter

/-- The identifier that a name spells. The mark of a raw identifier is no part of it. -/
def identifier (name : String) : List Char :=
  if ['r', '#'].isPrefixOf name.toList then name.toList.drop 2 else name.toList

inductive Meaning where
  /-- What it stood for before the setup. -/
  | outer (identifier : List Char)
  /-- A member of a pack of arguments. -/
  | member (pack : Meaning) (index : Nat)
  | guard (isMut : Bool) (handle : Meaning)
  /-- A reference to the value that a guard keeps borrowed. -/
  | pointee (isMut : Bool) (guard : Meaning)
  deriving DecidableEq, Repr

abbrev Bindings := List Char → Meaning

namespace Bindings

def bind (b : Bindings) (name : String) (meaning : Meaning) : Bindings :=
  fun i => if i = identifier name then meaning else b i

def bindPattern (b : Bindings) (meaning : Meaning) : Pattern → Bindings
  | .wildcard => b
  | .binding _ name => b.bind name meaning

/-- Binds patterns to the members of a pack, from the given one on. -/
def unpack (pack : Meaning) : Nat → List Pattern → Bindings → Bindings
  | _, [], b => b
  | index, p :: patterns, b =>
    unpack pack (index + 1) patterns (b.bindPattern (.member pack index) p)

/-- What a statement binds. Its right-hand side is read first. -/
def step : SetupStatement → Bindings → Bindings
  | .extract slots _ _, b => unpack (b (identifier packBinding)) 0 (slots.map Slot.pattern) b
  | .borrow name _ isMut, b => b.bind (guardName name) (.guard isMut (b (identifier name)))
  | .rebind name isMut _, b => b.bind name (.pointee isMut (b (identifier (guardName name))))

def run : List SetupStatement → Bindings → Bindings
  | [], b => b
  | s :: statements, b => run statements (step s b)

theorem run_append (statements rest : List SetupStatement) (b : Bindings) :
    run (statements ++ rest) b = run rest (run statements b) := by
  induction statements generalizing b with
  | nil => rfl
  | cons s statements ih => exact ih (step s b)

theorem bind_self (b : Bindings) (name : String) (meaning : Meaning) :
    b.bind name meaning (identifier name) = meaning := if_pos rfl

theorem bind_ne {i : List Char} {name : String} (h : i ≠ identifier name) (b : Bindings)
    (meaning : Meaning) : b.bind name meaning i = b i := if_neg h

end Bindings

open Bindings

/-! ### Identifiers of guards -/

theorem identifier_guardName (name : String) :
    identifier (guardName name) = identifier name ++ "_ud_ref".toList := by
  have hchars : (guardName name).toList = name.toList ++ "_ud_ref".toList := String.toList_append
  rw [identifier, identifier, hchars]
  rcases name.toList with _ | ⟨c, _ | ⟨d, rest⟩⟩
  · rfl
  · simp [List.isPrefixOf]
  · by_cases hraw : c = 'r' ∧ d = '#'
    · simp [List.isPrefixOf, hraw]
    · have hraw' : ¬('r' = c ∧ '#' = d) := fun h => hraw ⟨h.1.symm, h.2.symm⟩
      simp [List.isPrefixOf, hraw']

theorem identifier_ne_guardName (name : String) :
    identifier name ≠ identifier (guardName name) := by
  intro h
  have hlength := congrArg List.length h
  rw [identifier_guardName, List.length_append] at hlength
  simp at hlength

/-! ### One argument -/

/-- The meaning that a parameter is to have in the body: the member of the pack itself, or
what a guard on it keeps borrowed. -/
def ownMeaning (member : Meaning) : Passing → Meaning
  | .value _ => member
  | .handle isMut _ => .pointee isMut (.guard isMut member)

/-- Neither a parameter as it is to be, nor what stood outside. -/
inductive Spoiled : Meaning → Prop
  | guard (isMut : Bool) (handle : Meaning) : Spoiled (.guard isMut handle)
  | borrowed (isMut isMut' : Bool) {handle : Meaning} (h : Spoiled handle) :
    Spoiled (.pointee isMut (.guard isMut' handle))

theorem not_spoiled_member (pack : Meaning) (index : Nat) : ¬Spoiled (.member pack index) := by
  rintro ⟨⟩

theorem not_spoiled_outer (i : List Char) : ¬Spoiled (.outer i) := by
  rintro ⟨⟩

theorem not_spoiled_ownMeaning (pack : Meaning) (index : Nat) (p : Passing) :
    ¬Spoiled (ownMeaning (.member pack index) p) := by
  cases p with
  | value type => exact not_spoiled_member pack index
  | handle isMut pointee =>
    rintro (_ | ⟨_, _, h⟩)
    exact not_spoiled_member pack index h

variable {a : Argument} {i : List Char}

theorem run_value {type : RustType} (h : a.passing = .value type) (b : Bindings) :
    run (borrowStatements a) b = b := by
  rw [borrowStatements, h]
  rfl

theorem run_handle {isMut : Bool} {type : RustType} (h : a.passing = .handle isMut type)
    (b : Bindings) :
    run (borrowStatements a) b =
      (b.bind (guardName a.name) (.guard isMut (b (identifier a.name)))).bind a.name
        (.pointee isMut (.guard isMut (b (identifier a.name)))) := by
  rw [borrowStatements, h]
  change ((b.bind (guardName a.name) _).bind a.name
    (.pointee isMut ((b.bind (guardName a.name) _) (identifier (guardName a.name))))) = _
  rw [bind_self]

/-- Only the argument itself and its guard are bound. -/
theorem run_borrowStatements_ne (b : Bindings) (hname : i ≠ identifier a.name)
    (hguard : a.passing.isHandle = true → i ≠ identifier (guardName a.name)) :
    run (borrowStatements a) b i = b i := by
  cases hpassing : a.passing with
  | value type => rw [run_value hpassing]
  | handle isMut type =>
    rw [hpassing] at hguard
    rw [run_handle hpassing, bind_ne hname, bind_ne (hguard rfl)]

/-- An argument ends as its own, whatever else is bound. -/
theorem run_borrowStatements_self (b : Bindings) (a : Argument) :
    run (borrowStatements a) b (identifier a.name) =
      ownMeaning (b (identifier a.name)) a.passing := by
  cases hpassing : a.passing with
  | value type =>
    rw [run_value hpassing]
    rfl
  | handle isMut type =>
    rw [run_handle hpassing, bind_self]
    rfl

/-- The identifier of a guard holds the guard behind its argument. -/
theorem spoiled_guardName (b : Bindings) (h : a.passing.isHandle = true) :
    Spoiled (run (borrowStatements a) b (identifier (guardName a.name))) := by
  cases hpassing : a.passing with
  | value type =>
    rw [hpassing] at h
    cases h
  | handle isMut type =>
    rw [run_handle hpassing, bind_ne (identifier_ne_guardName a.name).symm, bind_self]
    exact .guard isMut _

/-- What is spoiled stays so: a handle is borrowed from what its name stands for. -/
theorem Spoiled.run_borrowStatements {b : Bindings} (h : Spoiled (b i)) (a : Argument) :
    Spoiled (run (borrowStatements a) b i) := by
  by_cases hname : i = identifier a.name
  · subst hname
    rw [run_borrowStatements_self]
    cases a.passing with
    | value type => exact h
    | handle isMut pointee => exact .borrowed isMut isMut h
  · by_cases hguard : a.passing.isHandle = true ∧ i = identifier (guardName a.name)
    · rw [hguard.2]
      exact spoiled_guardName b hguard.1
    · rw [run_borrowStatements_ne b hname fun hhandle heq => hguard ⟨hhandle, heq⟩]
      exact h

/-! ### All arguments -/

theorem run_flatMap_cons (a : Argument) (args : List Argument) (b : Bindings) :
    run ((a :: args).flatMap borrowStatements) b =
      run (args.flatMap borrowStatements) (run (borrowStatements a) b) := by
  rw [List.flatMap_cons, run_append]

theorem run_flatMap_ne {args : List Argument} (b : Bindings)
    (hnames : ∀ a ∈ args, i ≠ identifier a.name)
    (hguards : ∀ a ∈ args, a.passing.isHandle = true → i ≠ identifier (guardName a.name)) :
    run (args.flatMap borrowStatements) b i = b i := by
  induction args generalizing b with
  | nil => rfl
  | cons a args ih =>
    rw [List.forall_mem_cons] at hnames hguards
    rw [run_flatMap_cons, ih _ hnames.2 hguards.2, run_borrowStatements_ne b hnames.1 hguards.1]

theorem Spoiled.run_flatMap {b : Bindings} (h : Spoiled (b i)) (args : List Argument) :
    Spoiled (run (args.flatMap borrowStatements) b i) := by
  induction args generalizing b with
  | nil => exact h
  | cons a args ih =>
    rw [run_flatMap_cons]
    exact ih (h.run_borrowStatements a)

/-- The identifier of a guard is spoiled behind all arguments. -/
theorem spoiled_of_mem {args : List Argument} (ha : a ∈ args) (hhandle : a.passing.isHandle = true)
    (b : Bindings) :
    Spoiled (run (args.flatMap borrowStatements) b (identifier (guardName a.name))) := by
  obtain ⟨before, after, rfl⟩ := List.append_of_mem ha
  rw [List.flatMap_append, run_append, run_flatMap_cons]
  exact (spoiled_guardName _ hhandle).run_flatMap after

theorem unpack_ne {pack : Meaning} {index : Nat} {patterns : List Pattern} (b : Bindings)
    (h : ∀ isMut name, .binding isMut name ∈ patterns → i ≠ identifier name) :
    unpack pack index patterns b i = b i := by
  induction patterns generalizing index b with
  | nil => rfl
  | cons p patterns ih =>
    rw [unpack, ih _ fun isMut name hmem => h isMut name (List.mem_cons_of_mem p hmem)]
    cases p with
    | wildcard => rfl
    | binding isMut name => exact bind_ne (h isMut name List.mem_cons_self) b _

/-- A pattern that no later one hides is bound to its own member. -/
theorem unpack_at {pack : Meaning} (before after : List Pattern) (isMut : Bool) (name : String)
    (index : Nat) (b : Bindings)
    (h : ∀ isMut' other, .binding isMut' other ∈ after → identifier name ≠ identifier other) :
    unpack pack index (before ++ .binding isMut name :: after) b (identifier name) =
      .member pack (index + before.length) := by
  induction before generalizing index b with
  | nil =>
    rw [List.nil_append, unpack, unpack_ne _ h]
    exact bind_self b name _
  | cons p before ih =>
    rw [List.cons_append, unpack, ih, List.length_cons]
    congr 1
    omega

theorem pattern_slot (target : RuntimeTarget) (a : Argument) :
    (slot target a).pattern = pattern a := by
  unfold slot
  cases a.passing <;> rfl

/-- The number of arguments before the parameters' own: the table. -/
def leading : CallConvention → Nat
  | .receiver => 0
  | .table => 1

theorem patterns_slots (target : RuntimeTarget) (convention : CallConvention)
    (args : List Argument) : ∃ first, first.length = leading convention ∧
      (∀ isMut name, .binding isMut name ∉ first) ∧
      (slots target convention args).map Slot.pattern = first ++ args.map pattern := by
  have hargs : (args.map (slot target)).map Slot.pattern = args.map pattern := by
    rw [List.map_map]
    exact List.map_congr_left fun a _ => pattern_slot target a
  cases convention with
  | receiver => exact ⟨[], rfl, by simp, hargs⟩
  | table =>
    refine ⟨[.wildcard], rfl, by simp, ?_⟩
    rw [slots, List.map_cons, hargs]
    rfl

/-! ### The setup -/

def outside : Bindings := Meaning.outer

def bound (target : RuntimeTarget) (convention : CallConvention) (context : String)
    (s : Signature) : Bindings :=
  run (setup target convention context s) outside

def memberFor (convention : CallConvention) (index : Nat) : Meaning :=
  .member (outside (identifier packBinding)) (leading convention + index)

/-- Where the body starts, every parameter stands for its own: the context for what it was, a
value for its member of the pack, a handle for what is borrowed from its member. -/
structure Hygienic (convention : CallConvention) (s : Signature) (b : Bindings) : Prop where
  context : ∀ c ∈ s.context, b (identifier c.name) = outside (identifier c.name)
  args : ∀ index a, s.args[index]? = some a →
    b (identifier a.name) = ownMeaning (memberFor convention index) a.passing

def Apart (s : Signature) : Prop :=
  ∀ a ∈ s.args, a.passing.isHandle = true →
    ∀ name ∈ s.parameterNames, identifier (guardName a.name) ≠ identifier name

instance (s : Signature) : Decidable (Apart s) :=
  inferInstanceAs (Decidable (∀ a ∈ s.args, a.passing.isHandle = true →
    ∀ name ∈ s.parameterNames, identifier (guardName a.name) ≠ identifier name))

variable {target : RuntimeTarget} {convention : CallConvention} {context : String} {s : Signature}

/-- Behind the extraction every parameter stands for its member of the pack, and nothing else
is bound. -/
theorem unpack_slots_at (hdistinct : (s.args.map fun a => identifier a.name).Nodup)
    {before after : List Argument} (hargs : s.args = before ++ a :: after) (b : Bindings)
    (pack : Meaning) :
    unpack pack 0 ((slots target convention s.args).map Slot.pattern) b (identifier a.name) =
      .member pack (leading convention + before.length) := by
  obtain ⟨first, hlength, _, hpatterns⟩ := patterns_slots target convention s.args
  have hafter : ∀ x ∈ after, identifier a.name ≠ identifier x.name := by
    rw [hargs, List.map_append, List.map_cons] at hdistinct
    have hnodup := (List.nodup_append.1 hdistinct).2.1
    intro x hx heq
    exact (List.nodup_cons.1 hnodup).1 (heq ▸ List.mem_map_of_mem hx)
  rw [hpatterns, hargs, List.map_append, List.map_cons, ← List.append_assoc]
  unfold pattern
  rw [unpack_at]
  · rw [List.length_append, List.length_map, hlength, Nat.zero_add]
  · intro isMut other hmem
    obtain ⟨x, hx, heq⟩ := List.mem_map.1 hmem
    cases heq
    exact hafter x hx

theorem unpack_slots_ne (h : ∀ a ∈ s.args, i ≠ identifier a.name) (b : Bindings)
    (pack : Meaning) :
    unpack pack 0 ((slots target convention s.args).map Slot.pattern) b i = b i := by
  obtain ⟨first, _, hfirst, hpatterns⟩ := patterns_slots target convention s.args
  rw [hpatterns]
  refine unpack_ne b fun isMut name hmem => ?_
  rcases List.mem_append.1 hmem with hmem | hmem
  · exact absurd hmem (hfirst isMut name)
  · obtain ⟨x, hx, heq⟩ := List.mem_map.1 hmem
    cases heq
    exact h x hx

theorem bound_eq (target : RuntimeTarget) (convention : CallConvention) (context : String)
    (s : Signature) (hne : s.args ≠ []) :
    bound target convention context s =
      run (s.args.flatMap borrowStatements)
        (unpack (outside (identifier packBinding)) 0
          ((slots target convention s.args).map Slot.pattern) outside) := by
  rw [bound, setup, if_neg (by simpa using hne)]
  rfl

theorem hygienic_of_apart (hdistinct : (s.parameterNames.map identifier).Nodup)
    (hapart : Apart s) : Hygienic convention s (bound target convention context s) := by
  rw [Signature.parameterNames, List.map_append, List.map_map, List.map_map] at hdistinct
  obtain ⟨_, hnames, hcontexts⟩ := List.nodup_append.1 hdistinct
  constructor
  · intro c hc
    have hmem : c ∈ s.context.toList := by simpa using hc
    have hnot : ∀ a ∈ s.args, identifier c.name ≠ identifier a.name := fun a ha =>
      hcontexts _ (List.mem_map_of_mem hmem) _ (List.mem_map_of_mem ha)
    have hguards : ∀ a ∈ s.args, a.passing.isHandle = true →
        identifier c.name ≠ identifier (guardName a.name) := by
      intro a ha hhandle heq
      refine hapart a ha hhandle c.name ?_ heq.symm
      exact List.mem_append_left _ (List.mem_map_of_mem hmem)
    by_cases hempty : s.args = []
    · rw [bound, setup, if_pos (by simpa using hempty)]
      rfl
    · rw [bound_eq target convention context s hempty, run_flatMap_ne _ hnot hguards,
        unpack_slots_ne hnot]
  · intro index a ha
    have hempty : s.args ≠ [] := by
      rintro hnil
      simp [hnil] at ha
    obtain ⟨hlt, hget⟩ := List.getElem?_eq_some_iff.1 ha
    have hargs : s.args = s.args.take index ++ a :: s.args.drop (index + 1) := by
      rw [← hget, ← List.drop_eq_getElem_cons hlt, List.take_append_drop]
    have hlength : (s.args.take index).length = index := List.length_take_of_le (Nat.le_of_lt hlt)
    generalize s.args.take index = before at hargs hlength
    generalize s.args.drop (index + 1) = after at hargs
    have hguards : ∀ x ∈ s.args, x.passing.isHandle = true →
        identifier a.name ≠ identifier (guardName x.name) := by
      intro x hx hhandle heq
      refine hapart x hx hhandle a.name ?_ heq.symm
      exact List.mem_append_right _ (List.mem_map_of_mem (List.mem_of_getElem? ha))
    have hsplit : (before.map fun x => identifier x.name) ++
        identifier a.name :: (after.map fun x => identifier x.name) =
        s.args.map fun x => identifier x.name := by
      rw [hargs, List.map_append, List.map_cons]
    have hnodup : ((before.map fun x => identifier x.name) ++
        identifier a.name :: (after.map fun x => identifier x.name)).Nodup := hsplit ▸ hnames
    have hbefore : ∀ x ∈ before, identifier a.name ≠ identifier x.name := fun x hx heq =>
      (List.nodup_append.1 hnodup).2.2 _ (List.mem_map_of_mem hx) _ List.mem_cons_self heq.symm
    have hafter : ∀ x ∈ after, identifier a.name ≠ identifier x.name := fun x hx heq =>
      (List.nodup_cons.1 (List.nodup_append.1 hnodup).2.1).1 (heq ▸ List.mem_map_of_mem hx)
    rw [bound_eq target convention context s hempty]
    -- what is bound before and behind the argument leaves it alone
    have hrun : ∀ b : Bindings, run (s.args.flatMap borrowStatements) b (identifier a.name) =
        ownMeaning (b (identifier a.name)) a.passing := by
      intro b
      rw [hargs, List.flatMap_append, run_append, run_flatMap_cons,
        run_flatMap_ne _ hafter fun x hx => hguards x (by simp [hargs, hx]),
        run_borrowStatements_self,
        run_flatMap_ne _ hbefore fun x hx => hguards x (by simp [hargs, hx])]
    rw [hrun, unpack_slots_at hnames hargs, hlength]
    rfl

theorem apart_of_hygienic (h : Hygienic convention s (bound target convention context s)) :
    Apart s := by
  intro a ha hhandle name hname heq
  have hempty : s.args ≠ [] := List.ne_nil_of_mem ha
  have hspoiled : Spoiled (bound target convention context s (identifier name)) := by
    rw [← heq, bound_eq target convention context s hempty]
    exact spoiled_of_mem ha hhandle _
  rcases List.mem_append.1 hname with hcontext | harg
  · obtain ⟨c, hc, rfl⟩ := List.mem_map.1 hcontext
    rw [h.context c (by simpa using hc)] at hspoiled
    exact not_spoiled_outer _ hspoiled
  · obtain ⟨x, hx, rfl⟩ := List.mem_map.1 harg
    obtain ⟨index, hindex⟩ := List.mem_iff_getElem?.1 hx
    rw [h.args index x hindex] at hspoiled
    exact not_spoiled_ownMeaning _ _ _ hspoiled

/-- Under either convention, parameters with different names all end as their own just if no
guard is called like one of them. -/
theorem hygienic_iff_apart (target : RuntimeTarget) (convention : CallConvention)
    (context : String) {s : Signature} (hdistinct : (s.parameterNames.map identifier).Nodup) :
    Hygienic convention s (bound target convention context s) ↔ Apart s :=
  ⟨apart_of_hygienic, hygienic_of_apart hdistinct⟩

def firstSignature? (source : String) : Option Signature :=
  (ImplBlock.ofSource source ImplBlock.defaultMarker).toOption.bind fun impls =>
    (impls.flatMap ImplBlock.methods).head?.bind fun m =>
      (Signature.ofMethod .default m).toOption

/-- A context, two handles and a value. -/
theorem hygienic_iff_apart_handles :
    let source := "#[lua_methods] impl T \x7b fn f<'a>(c: &'a Lua, mut a: &A, r#b: &mut B, x: u8) \x7b\x7d \x7d"
    ∃ s, firstSignature? source = some s ∧ s.parameterNames = ["c", "a", "r#b", "x"] ∧
      (s.parameterNames.map identifier).Nodup ∧
      Hygienic .table s (bound .default .table "c" s) := by
  intro source
  have hruns : (firstSignature? source).map (fun s => (s.parameterNames, decide (Apart s))) =
      some (["c", "a", "r#b", "x"], true) := by
    decide +kernel
  obtain ⟨s, hs, heq⟩ := Option.map_eq_some_iff.1 hruns
  obtain ⟨hnames, hapart⟩ := Prod.mk.inj heq
  have hdistinct : (s.parameterNames.map identifier).Nodup := by
    rw [hnames]
    decide
  exact ⟨s, hs, hnames, hdistinct,
    (hygienic_iff_apart .default .table "c" hdistinct).2 (of_decide_eq_true hapart)⟩

/-- A parameter that is called like the guard of another is lost to the guard. -/
theorem guard_hides_parameter :
    let source := "#[lua_methods]\nimpl T \x7b\n    fn f(a: &U, a_ud_ref: i32) \x7b\x7d\n\x7d\n"
    ∃ s, firstSignature? source = some s ∧ (s.parameterNames.map identifier).Nodup ∧
      ∀ convention, ¬Hygienic convention s (bound .default convention "__lua_ctx" s) := by
  intro source
  have hruns : (firstSignature? source).map (fun s => (s.parameterNames, decide (Apart s))) =
      some (["a", "a_ud_ref"], false) := by
    decide +kernel
  obtain ⟨s, hs, heq⟩ := Option.map_eq_some_iff.1 hruns
  obtain ⟨hnames, hapart⟩ := Prod.mk.inj heq
  refine ⟨s, hs, ?_, fun convention h => of_decide_eq_false hapart (apart_of_hygienic h)⟩
  rw [hnames]
  decide

end Adapter
end LuaBindings
