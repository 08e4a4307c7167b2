import LuaBindings.Diagnostic

/-!
# Grouping diagnostics

A stage groups the errors of its parts, which may be groups themselves, and a new group takes
the members of those groups for its own, one level deep. The groups of this library's failures
are lists, with no level to take off. Both give one and the same (`report?_eq`): the
diagnostics at the leaves, in their order, however they were grouped on the way.
-/

set_option autoImplicit false

namespace LuaBindings

/-- An error as it is raised: a diagnostic, or a group of errors with a first one. -/
inductive Report where
  | single (d : Diagnostic)
  | group (first : Report) (others : List Report)

namespace Report

/-- The diagnostic that an error is placed and worded by: of a group, that of its first member. -/
def head : Report → Diagnostic
  | single d => d
  | group first _ => first.head

def line (r : Report) : Option Int := r.head.line

def column (r : Report) : Option Int := r.head.column

/-- What a new group takes from an error: the first, and all others. -/
def spread : Report → Report × List Report
  | single d => (single d, [])
  | group first others => (first, others)

def members (r : Report) : List Report := r.spread.1 :: r.spread.2

/-- Several errors become a group. Of the groups among them only the outermost level goes. -/
def combine : List Report → Option Report
  | [] => none
  | [r] => some r
  | r :: rest => some (.group r.spread.1 (r.spread.2 ++ rest.flatMap members))

mutual

def text : Report → String
  | single d => d.text
  | group first others => String.intercalate "\n" (first.text :: texts others)

def texts : List Report → List String
  | [] => []
  | r :: rest => r.text :: texts rest

end

def ofList? : List Diagnostic → Option Report
  | [] => none
  | [d] => some (.single d)
  | d :: others => some (.group (.single d) (others.map .single))

/-- The error says the given diagnostics and nothing else, and is placed at the first. -/
structure Says (r : Report) (ds : List Diagnostic) : Prop where
  members : r.members = ds.map .single
  text : r.text = String.intercalate "\n" (ds.map Diagnostic.text)
  line : ds.head?.map Diagnostic.line = some r.line
  column : ds.head?.map Diagnostic.column = some r.column

theorem texts_eq (reports : List Report) : texts reports = reports.map text := by
  induction reports with
  | nil => rfl
  | cons r rest ih => rw [texts, ih, List.map_cons]

theorem text_group (first : Report) (others : List Report) :
    (group first others).text = String.intercalate "\n" ((first :: others).map text) := by
  rw [text, texts_eq, List.map_cons]

theorem map_text_single (ds : List Diagnostic) :
    (ds.map single).map text = ds.map Diagnostic.text := by
  rw [List.map_map]
  exact List.map_congr_left fun d _ => text.eq_1 d

end Report

namespace Failure

def report (f : Failure) : Report :=
  match f.others with
  | [] => .single f.first
  | others => .group (.single f.first) (others.map .single)

theorem ofList?_toList (f : Failure) : ofList? f.toList = some f := rfl

theorem toList_of_ofList? {ds : List Diagnostic} {f : Failure} (h : ofList? ds = some f) :
    f.toList = ds := by
  cases ds with
  | nil => cases h
  | cons d ds =>
    cases h
    rfl

/-- No member of a failure is a group, however the failure came about. -/
theorem members_report (f : Failure) : f.report.members = f.toList.map .single := by
  unfold report toList
  cases f.others <;> rfl

theorem head_report (f : Failure) : f.report.head = f.first := by
  unfold report
  cases f.others <;> rfl

theorem text_report (f : Failure) : f.report.text = f.text := by
  rw [text, toList]
  unfold report
  cases f.others with
  | nil => rfl
  | cons d others =>
    have hmembers := Report.map_text_single (f.first :: d :: others)
    rw [List.map_cons] at hmembers
    rw [Report.text_group, hmembers]

theorem says_report (f : Failure) : f.report.Says f.toList where
  members := members_report f
  text := text_report f
  line := by rw [Report.line, head_report, toList, List.head?_cons, Option.map_some]
  column := by rw [Report.column, head_report, toList, List.head?_cons, Option.map_some]

theorem map_report_ofList? (ds : List Diagnostic) :
    (ofList? ds).map report = Report.ofList? ds := by
  cases ds with
  | nil => rfl
  | cons d others => cases others <;> rfl

/-- Taking one level off is enough for failures, since there is no second one. -/
theorem combine_map_report (failures : List Failure) :
    Report.combine (failures.map report) = (combine failures).map report := by
  cases failures with
  | nil => rfl
  | cons f rest =>
    have hrest : (rest.map report).flatMap Report.members =
        (rest.flatMap toList).map .single := by
      rw [List.flatMap_map, List.map_flatMap]
      simp only [members_report]
    cases rest with
    | nil =>
      rw [combine, List.flatMap_singleton, ofList?_toList]
      rfl
    | cons g rest =>
      have hmembers := members_report f
      rw [Report.members, toList, List.map_cons] at hmembers
      obtain ⟨hfirst, hothers⟩ := List.cons.inj hmembers
      rw [List.map_cons, List.map_cons, Report.combine, ← List.map_cons, hrest, hfirst, hothers,
        ← List.map_append]
      · rw [combine, List.flatMap_cons, toList, List.cons_append, map_report_ofList?,
          List.flatMap_cons, toList, List.cons_append]
        cases f.others <;> rfl
      · nofun

end Failure

inductive ErrorTree where
  | leaf (d : Diagnostic)
  | node (members : List ErrorTree)

namespace ErrorTree

mutual

def leaves : ErrorTree → List Diagnostic
  | leaf d => [d]
  | node members => leavesAll members

def leavesAll : List ErrorTree → List Diagnostic
  | [] => []
  | t :: rest => leaves t ++ leavesAll rest

end

mutual

/-- The failure that the tree is combined to, innermost first. -/
def failure? : ErrorTree → Option Failure
  | leaf d => some (.single d)
  | node members => Failure.combine (failures members)

def failures : List ErrorTree → List Failure
  | [] => []
  | t :: rest => (failure? t).toList ++ failures rest

end

mutual

def report? : ErrorTree → Option Report
  | leaf d => some (.single d)
  | node members => Report.combine (reports members)

def reports : List ErrorTree → List Report
  | [] => []
  | t :: rest => (report? t).toList ++ reports rest

end

theorem leavesAll_eq (trees : List ErrorTree) : leavesAll trees = trees.flatMap leaves := by
  induction trees with
  | nil => rfl
  | cons t rest ih => rw [leavesAll, ih, List.flatMap_cons]

theorem flatMap_toList_toList (ds : List Diagnostic) :
    (Failure.ofList? ds).toList.flatMap Failure.toList = ds := by
  cases ds with
  | nil => rfl
  | cons d ds => exact List.append_nil _

mutual

/-- A failure has the leaves of its tree. -/
theorem failure?_eq : ∀ t : ErrorTree, t.failure? = Failure.ofList? t.leaves
  | leaf _ => rfl
  | node members => by rw [failure?, Failure.combine, flatMap_failures members, leaves]

theorem flatMap_failures : ∀ trees : List ErrorTree,
    (failures trees).flatMap Failure.toList = leavesAll trees
  | [] => rfl
  | t :: rest => by
    rw [failures, List.flatMap_append, failure?_eq t, flatMap_toList_toList, flatMap_failures rest,
      leavesAll]

end

mutual

/-- Errors that are combined as objects are the failures of this library. -/
theorem report?_eq_failure : ∀ t : ErrorTree, t.report? = t.failure?.map Failure.report
  | leaf _ => rfl
  | node members => by
    rw [report?, reports_eq members, Failure.combine_map_report, failure?]

theorem reports_eq : ∀ trees : List ErrorTree, reports trees = (failures trees).map Failure.report
  | [] => rfl
  | t :: rest => by
    rw [reports, failures, reports_eq rest, report?_eq_failure t, List.map_append,
      Option.toList_map]

end

theorem leaves_of_failure? {t : ErrorTree} {f : Failure} (h : t.failure? = some f) :
    f.toList = t.leaves := by
  rw [failure?_eq] at h
  exact Failure.toList_of_ofList? h

theorem report?_eq_ofList? (t : ErrorTree) : t.report? = Report.ofList? t.leaves := by
  rw [report?_eq_failure, failure?_eq, Failure.map_report_ofList?]

theorem leaves_node_flatten (groups : List (List ErrorTree)) :
    (node (groups.map node)).leaves = (node groups.flatten).leaves := by
  rw [leaves, leaves, leavesAll_eq, leavesAll_eq]
  induction groups with
  | nil => rfl
  | cons group rest ih =>
    rw [List.map_cons, List.flatMap_cons, ih, leaves, leavesAll_eq, List.flatten_cons,
      List.flatMap_append]

theorem refuse_eq_error_iff {α : Type} {trees : List ErrorTree} {value : α} {f : Failure} :
    Failure.refuse (failures trees) value = .error f ↔ (node trees).leaves = f.toList := by
  have hcombine : Failure.combine (failures trees) = Failure.ofList? (node trees).leaves :=
    failure?_eq (node trees)
  rw [Failure.refuse, hcombine]
  cases (node trees).leaves with
  | nil => exact iff_of_false nofun nofun
  | cons d ds =>
    constructor
    · intro h
      cases h
      rfl
    · intro h
      cases h
      rfl

theorem refuse_eq_ok_iff {α : Type} {trees : List ErrorTree} {value value' : α} :
    Failure.refuse (failures trees) value = .ok value' ↔
      (node trees).leaves = [] ∧ value = value' := by
  have hcombine : Failure.combine (failures trees) = Failure.ofList? (node trees).leaves :=
    failure?_eq (node trees)
  rw [Failure.refuse, hcombine]
  cases (node trees).leaves with
  | nil => simp [Failure.ofList?]
  | cons d ds => exact iff_of_false nofun nofun

/-- What a tree of errors is combined to depends on its leaves only: nothing, the one error, or
a group of all of them in their order, without groups inside. Stages that refuse with the
failures of their parts, and parts that are grouped once more, make no difference. -/
theorem report?_eq (t : ErrorTree) :
    t.report? = Report.ofList? t.leaves ∧
    (∀ r, t.report? = some r → r.Says t.leaves) ∧
    t.report? = t.failure?.map Failure.report ∧
    (∀ f, t.failure? = some f → f.toList = t.leaves ∧ f.report.text = f.text) ∧
    (∀ groups : List (List ErrorTree),
      (node (groups.map node)).report? = (node groups.flatten).report?) ∧
    (∀ (trees : List ErrorTree) (α : Type) (value : α),
      (∀ f, Failure.refuse (failures trees) value = .error f ↔ (node trees).leaves = f.toList) ∧
        ∀ value', Failure.refuse (failures trees) value = .ok value' ↔
          (node trees).leaves = [] ∧ value = value') := by
  refine ⟨report?_eq_ofList? t, ?_, report?_eq_failure t, ?_, ?_, ?_⟩
  · intro r h
    rw [report?_eq_failure] at h
    obtain ⟨f, hf, rfl⟩ := Option.map_eq_some_iff.1 h
    rw [← leaves_of_failure? hf]
    exact f.says_report
  · intro f h
    exact ⟨leaves_of_failure? h, f.text_report⟩
  · intro groups
    rw [report?_eq_ofList?, report?_eq_ofList?, leaves_node_flatten]
  · intro trees α value
    exact ⟨fun f => refuse_eq_error_iff, fun value' => refuse_eq_ok_iff⟩

end ErrorTree
end LuaBindings
