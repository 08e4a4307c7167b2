import LuaBindings.Proofs.Places.Interfaces
import LuaBindings.Proofs.TokenTree.OpenComments

/-!
# Where sources fail

Whatever is diagnosed of a source that has tokens stands where one of them starts
(`Source.diagnostics_point_into_tokens`). A source without trees has one diagnostic, where
reading it stops.
-/

set_option autoImplicit false

namespace LuaBindings

/-- Where and why the reading of a text stops: at the first character that begins no token, at a
comment that never ends, at the first closer that does not close the group opened last, or at
the last token if a group is still open there. -/
inductive StopsAt (text : List Char) : Location → Cause → Prop
  | stray {front rest : List Char} {c : Char} : text = front ++ c :: rest →
    NestingScan.Reads front (c :: rest) → NestingScan.step (c :: rest) = .stuck →
    StopsAt text (Location.first.after front)
      (.untokenizable (.strayCharacter c) (Location.first.after front))
  | comment {front rest : List Char} : text = front ++ rest → NestingScan.Reads front rest →
    Terminal.NeverCloses rest → StopsAt text (Location.first.after front) .unterminatedComment
  | closer {d : Delimiter} {pending : List Delimiter} {before after : List Token} {t : Token} :
    Comment.lexed text = .ok (before ++ t :: after) → Unclosed pending before →
    t.kind = .closer d → pending.head? ≠ some d →
    StopsAt text t.start (.untokenizable (.unexpectedCloser d) t.start)
  | lastToken {d : Delimiter} {pending : List Delimiter} {tokens : List Token} {t : Token} :
    Comment.lexed text = .ok tokens → Unclosed (d :: pending) tokens →
    tokens.getLast? = some t → StopsAt text t.start (.untokenizable .openAtEnd t.start)

/-- A comment at which lexing stops is never closed. -/
theorem NestingScan.neverCloses_of_step {text : List Char} (h : step text = .unterminated) :
    Terminal.NeverCloses text := by
  obtain ⟨rest, rfl, -⟩ := exists_of_unterminated h
  refine Terminal.neverCloses_iff.2 ⟨⟨rest, rfl⟩, ?_⟩
  unfold step at h
  split at h
  · cases h
  · split at h
    · assumption
    · cases h
  · cases h

theorem TokenTree.stopsAt_of_ofText {text : List Char} {d : Diagnostic}
    (h : ofText text = .error d) : ∃ place cause, d = .atPlace place cause ∧
      StopsAt text place cause := by
  cases hlexed : Comment.lexed text with
  | ok tokens =>
    rw [ofText_of_lexed hlexed] at h
    cases ofTokens_eq_error h with
    | unexpected hunclosed hkind hother =>
      exact ⟨_, _, rfl, .closer hlexed hunclosed hkind hother⟩
    | openAtEnd hunclosed hlast => exact ⟨_, _, rfl, .lastToken hlexed hunclosed hlast⟩
  | error e =>
    rw [Comment.lexed_eq] at hlexed
    rw [ofText_eq, hlexed] at h
    cases h
    have hfault : (NestingScan.ofText text).fault = some d := by
      rw [NestingScan.outcome] at hlexed
      split at hlexed
      · rename_i hfault
        rw [hfault, Except.error.inj hlexed]
      · cases hlexed
    obtain ⟨front, rest, rfl, hreads, hends⟩ :=
      (NestingScan.cut_scanFrom .first text).exists_reads hfault
    obtain ⟨c, back, rfl, hstep, rfl⟩ | ⟨hstep, rfl⟩ := hends
    · exact ⟨_, _, rfl, .stray rfl hreads hstep⟩
    · exact ⟨_, _, rfl, .comment rfl hreads (NestingScan.neverCloses_of_step hstep)⟩

/-- Every diagnostic of the blocks, the interfaces and the expansion of a source stands where
one of the tokens of the source starts. A source that has no trees has one diagnostic, where
reading it stops. A string that names no code point is a fault, but it is not diagnosed. -/
theorem Source.diagnostics_point_into_tokens (source attrName : String) (target : RuntimeTarget) :
    (∀ trees, TokenTree.ofSource source = .ok trees →
      let tokens := TokenTree.flatten trees
      Comment.lexed source.toList = .ok tokens ∧
      (∀ f, ImplBlock.ofSource source attrName = .error f → f.PointsInto tokens) ∧
      ∀ impls, ImplBlock.ofSource source attrName = .ok impls →
        (∀ impl ∈ impls, ∀ f, Interface.ofImpl target impl = .error (.diagnosed f) →
          f.PointsInto tokens) ∧
        (∀ f, Generator.interfaces target impls = .error (.diagnosed f) → f.PointsInto tokens) ∧
        ∀ interfaces : List Interface, (∀ i ∈ interfaces, i.impl ∈ impls) →
          ∀ f, Generator.expand source interfaces = .error f → f.PointsInto tokens) ∧
    ∀ f, TokenTree.ofSource source = .error f →
      ImplBlock.ofSource source attrName = .error f ∧
      ∃ place cause, f = .atPlace place cause ∧ StopsAt source.toList place cause := by
  constructor
  · intro trees htrees tokens
    have hblocks := ImplBlock.meets_ofSource attrName htrees
    refine ⟨TokenTree.lexed_of_ofSource htrees, fun f hf => hblocks.of_error hf,
      fun impls himpls => ?_⟩
    have hanchored := hblocks.of_ok himpls
    refine ⟨fun impl himpl f hf => ((hanchored impl himpl).ofImpl target).of_error hf,
      fun f hf => (Generator.meets_interfaces target hanchored).of_error hf,
      fun interfaces hbuilt f hf => ?_⟩
    exact (Generator.meets_expand source fun i hi => hanchored _ (hbuilt i hi)).of_error hf
  · intro f hf
    rw [ImplBlock.ofSource, hf]
    obtain ⟨d, rfl, htext⟩ := TokenTree.exists_ofText_of_ofSource hf
    obtain ⟨place, cause, rfl, hstops⟩ := TokenTree.stopsAt_of_ofText htext
    exact ⟨rfl, place, cause, rfl, hstops⟩

/-- A function of a tuple cannot be published under a name; and a group is closed by the wrong
delimiter. -/
theorem Source.diagnostics_point_into_tokens_tuple :
    let source := "#[lua_methods]\nimpl (A, B) \x7b fn f() \x7b\x7d \x7d\n"
    (∃ trees impls interfaces f, TokenTree.ofSource source = .ok trees ∧
      ImplBlock.ofSource source "lua_methods" = .ok impls ∧
      Generator.interfaces .default impls = .ok interfaces ∧
      Generator.expand source interfaces = .error f ∧ f.PointsInto (TokenTree.flatten trees)) ∧
    ∃ f place cause, TokenTree.ofSource "(]" = .error f ∧ f = .atPlace place cause ∧
      StopsAt "(]".toList place cause := by
  intro source
  constructor
  · have hruns : ((TokenTree.ofSource source).toOption.bind fun _ =>
        (ImplBlock.ofSource source "lua_methods").toOption.bind fun impls =>
          (Generator.interfaces .default impls).toOption.map fun interfaces =>
            (Generator.expand source interfaces).toOption) = some none := by
      decide +kernel
    obtain ⟨trees, htrees, hruns⟩ := Option.bind_eq_some_iff.1 hruns
    obtain ⟨impls, himpls, hruns⟩ := Option.bind_eq_some_iff.1 hruns
    obtain ⟨interfaces, hinterfaces, hruns⟩ := Option.map_eq_some_iff.1 hruns
    have himpls := eq_ok_of_toOption himpls
    have hinterfaces := eq_ok_of_toOption hinterfaces
    cases hexpand : Generator.expand source interfaces with
    | ok text =>
      rw [hexpand] at hruns
      cases hruns
    | error f =>
      have htrees := eq_ok_of_toOption htrees
      obtain ⟨-, -, hblocks⟩ :=
        (diagnostics_point_into_tokens source "lua_methods" .default).1 trees htrees
      obtain ⟨-, -, hexpansion⟩ := hblocks impls himpls
      refine ⟨trees, impls, interfaces, f, htrees, himpls, hinterfaces, hexpand,
        hexpansion interfaces (fun i hi => ?_) f hexpand⟩
      rw [← Generator.impls_of_interfaces hinterfaces]
      exact List.mem_map_of_mem hi
  · have hfails : (TokenTree.ofSource "(]").toOption.isNone = true := by decide +kernel
    cases hsource : TokenTree.ofSource "(]" with
    | ok trees =>
      rw [hsource] at hfails
      cases hfails
    | error f =>
      obtain ⟨-, place, cause, hplace, hstops⟩ :=
        (diagnostics_point_into_tokens "(]" "lua_methods" .default).2 f hsource
      exact ⟨f, place, cause, rfl, hplace, hstops⟩

end LuaBindings
