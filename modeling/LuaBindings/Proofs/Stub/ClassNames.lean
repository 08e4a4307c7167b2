import LuaBindings.Generator

/-!
# The class names of a stub

A stub reads the table of class names at the names that stand in the types it describes. The
table gives every name the class of the last interface that was remembered under it.
-/

set_option autoImplicit false

namespace LuaBindings

/-! ### What an annotation reads -/

mutual

/-- The names that stand in a type where its annotation looks. -/
def RustType.names : RustType → List String
  | .reference _ _ _ elem => elem.names
  | .tuple .. => []
  | .path _ _ _ last => last.names
  | .other _ => []

def PathSegment.names : PathSegment → List String
  | .mk name args => name :: TypeArg.namesAll args

def TypeArg.namesAll : List TypeArg → List String
  | [] => []
  | .lifetime _ :: rest => TypeArg.namesAll rest
  | .type t :: rest => t.names ++ TypeArg.namesAll rest

end

namespace Annotator

/-- Two annotators give the same annotations to types with these names. -/
structure AgreesOn (a b : Annotator) (names : List String) : Prop where
  fixed : a.fixed = b.fixed
  classes : ∀ name ∈ names, a.classNames.get? name = b.classNames.get? name

variable {a b : Annotator}

theorem AgreesOn.mono {names fewer : List String} (h : a.AgreesOn b names)
    (hsubset : ∀ name ∈ fewer, name ∈ names) : a.AgreesOn b fewer :=
  ⟨h.fixed, fun name hname => h.classes name (hsubset name hname)⟩

theorem named_congr {name : String} (hfixed : a.fixed = b.fixed)
    (hclass : a.classNames.get? name = b.classNames.get? name) (selfName : Option String)
    (args : List String) : a.named selfName name args = b.named selfName name args := by
  rw [named, named, hfixed, hclass]

mutual

theorem ofType_congr (selfName : Option String) :
    ∀ t : RustType, a.AgreesOn b t.names → a.ofType selfName t = b.ofType selfName t
  | .reference _ _ _ elem, h => ofType_congr selfName elem h
  | .tuple .., _ => rfl
  | .path _ _ _ last, h => ofSegment_congr selfName last h
  | .other _, _ => rfl

theorem ofSegment_congr (selfName : Option String) :
    ∀ s : PathSegment, a.AgreesOn b s.names → a.ofSegment selfName s = b.ofSegment selfName s
  | .mk name args, h => by
    rw [ofSegment, ofSegment,
      ofArgs_congr selfName args (h.mono fun _ hname => List.mem_cons_of_mem name hname)]
    exact named_congr h.fixed (h.classes name List.mem_cons_self) selfName _

theorem ofArgs_congr (selfName : Option String) :
    ∀ args : List TypeArg, a.AgreesOn b (TypeArg.namesAll args) →
      a.ofArgs selfName args = b.ofArgs selfName args
  | [], _ => rfl
  | .lifetime _ :: rest, h => ofArgs_congr selfName rest h
  | .type t :: rest, h => by
    rw [ofArgs, ofArgs,
      ofType_congr selfName t (h.mono fun _ hname => List.mem_append_left _ hname),
      ofArgs_congr selfName rest (h.mono fun _ hname => List.mem_append_right _ hname)]

end

end Annotator

/-! ### What a stub reads -/

namespace Stub

variable {a b : Annotator}

def parameterNames (m : PreparedMethod) : List String :=
  m.signature.args.flatMap fun arg => arg.passing.type.names

def resultNames (m : PreparedMethod) : List String :=
  match m.method.returnType with
  | none => []
  | some (.tuple _ elems) => elems.flatMap RustType.names
  | some t => t.names

def isDescribed (m : PreparedMethod) : Bool := isConstructor m || !isImplied m

/-- The names that stand in the types that the stub describes. -/
def names (interfaces : List Interface) : List String :=
  interfaces.flatMap fun i => (i.methods.filter isDescribed).flatMap fun m =>
    parameterNames m ++ resultNames m

theorem parameters_congr {m : PreparedMethod} (h : a.AgreesOn b (parameterNames m))
    (className : String) : parameters a className m = parameters b className m := by
  refine List.map_congr_left fun arg harg => ?_
  have htype : a.AgreesOn b arg.passing.type.names :=
    h.mono fun _ hname => List.mem_flatMap.2 ⟨arg, harg, hname⟩
  rw [Annotator.ofType_congr _ _ htype]

theorem returns_congr {m : PreparedMethod} (h : a.AgreesOn b (resultNames m))
    (className : String) : returns a className m = returns b className m := by
  unfold returns
  unfold resultNames at h
  cases hreturn : m.method.returnType with
  | none => rfl
  | some t =>
    rw [hreturn] at h
    cases t with
    | tuple trees elems =>
      refine List.map_congr_left fun elem helem => ?_
      exact Annotator.ofType_congr _ _ (h.mono fun _ hname =>
        List.mem_flatMap.2 ⟨elem, helem, hname⟩)
    | reference trees lifetime isMut elem =>
      exact congrArg (fun text => [text]) (Annotator.ofType_congr _ _ h)
    | path trees leadingColon qualifiers last =>
      exact congrArg (fun text => [text]) (Annotator.ofType_congr _ _ h)
    | other trees => rfl

theorem interfaceLines_congr {i : Interface} (h : ∀ m ∈ i.methods, isDescribed m = true →
    a.AgreesOn b (parameterNames m) ∧ a.AgreesOn b (resultNames m)) :
    interfaceLines a i = interfaceLines b i := by
  have hoverloads : ∀ m ∈ i.methods.filter isConstructor,
      overloadLine a i.className m = overloadLine b i.className m := by
    intro m hm
    obtain ⟨hm, hconstructor⟩ := List.mem_filter.1 hm
    obtain ⟨hparams, hresult⟩ := h m hm (by simp [isDescribed, hconstructor])
    unfold overloadLine
    rw [parameters_congr hparams, returns_congr hresult]
  have hfunctions : ∀ m ∈ i.methods.filter fun m => !isImplied m,
      "" :: functionLines a i.className m = "" :: functionLines b i.className m := by
    intro m hm
    obtain ⟨hm, himplied⟩ := List.mem_filter.1 hm
    obtain ⟨hparams, hresult⟩ := h m hm (by rw [isDescribed, himplied, Bool.or_true])
    simp only [functionLines, parameters_congr hparams, returns_congr hresult]
  simp only [interfaceLines, List.map_congr_left hoverloads, List.flatMap_def,
    List.map_congr_left hfunctions]

/-- Stubs differ in the classes that are known under the names in their types, or not at all. -/
theorem text_congr {interfaces : List Interface} (h : a.AgreesOn b (names interfaces))
    (moduleName : String) : text a moduleName interfaces = text b moduleName interfaces := by
  have hlines : ∀ i ∈ interfaces, interfaceLines a i ++ [""] = interfaceLines b i ++ [""] := by
    intro i hi
    refine congrArg (· ++ [""]) (interfaceLines_congr fun m hm hdescribed => ?_)
    have hboth : a.AgreesOn b (parameterNames m ++ resultNames m) :=
      h.mono fun _ hname => List.mem_flatMap.2 ⟨i, hi,
        List.mem_flatMap.2 ⟨m, List.mem_filter.2 ⟨hm, hdescribed⟩, hname⟩⟩
    exact ⟨hboth.mono fun _ hname => List.mem_append_left _ hname,
      hboth.mono fun _ hname => List.mem_append_right _ hname⟩
  simp only [text, lines, List.flatMap_def, List.map_congr_left hlines]

end Stub

/-! ### What the table gives -/

namespace Generator

/-- The class that interfaces publish for a type's base name; the last one holds. -/
def published? (name : String) : List Interface → Option String
  | [] => none
  | i :: rest =>
    (published? name rest).or
      (if i.impl.selfType.baseName? = some name then some i.className else none)

theorem published?_append (name : String) (interfaces rest : List Interface) :
    published? name (interfaces ++ rest) =
      (published? name rest).or (published? name interfaces) := by
  induction interfaces with
  | nil => rw [List.nil_append, published?, Option.or_none]
  | cons i interfaces ih => rw [List.cons_append, published?, ih, published?, Option.or_assoc]

def publishedNames (interfaces : List Interface) : List String :=
  interfaces.filterMap fun i => i.impl.selfType.baseName?

theorem published?_eq_none_iff {name : String} {interfaces : List Interface} :
    published? name interfaces = none ↔ name ∉ publishedNames interfaces := by
  induction interfaces with
  | nil => simp [published?, publishedNames]
  | cons i interfaces ih =>
    have hnames : publishedNames (i :: interfaces) =
        i.impl.selfType.baseName?.toList ++ publishedNames interfaces := by
      rw [publishedNames, List.filterMap_cons]
      cases i.impl.selfType.baseName? <;> rfl
    rw [published?, Option.or_eq_none_iff, ih, hnames, List.mem_append, not_or, and_comm]
    simp

/-- The class that is published is that of the last interface with the name. -/
theorem published?_eq_some_iff {name className : String} {interfaces : List Interface} :
    published? name interfaces = some className ↔
      ∃ before i after, interfaces = before ++ i :: after ∧
        i.impl.selfType.baseName? = some name ∧ i.className = className ∧
        ∀ j ∈ after, j.impl.selfType.baseName? ≠ some name := by
  induction interfaces with
  | nil => simp [published?]
  | cons first rest ih =>
    have hrest : published? name rest = none ↔ ∀ j ∈ rest, j.impl.selfType.baseName? ≠ some name := by
      simp [published?_eq_none_iff, publishedNames]
    rw [published?, Option.or_eq_some_iff, ih, hrest]
    constructor
    · rintro (⟨before, i, after, rfl, hlast⟩ | ⟨hnone, hfirst⟩)
      · exact ⟨first :: before, i, after, rfl, hlast⟩
      · split at hfirst
        · rename_i hname
          exact ⟨[], first, rest, rfl, hname, Option.some.inj hfirst, hnone⟩
        · cases hfirst
    · rintro ⟨before, i, after, heq, hname, hclass, hafter⟩
      cases before with
      | nil =>
        cases heq
        exact .inr ⟨hafter, by rw [if_pos hname, hclass]⟩
      | cons j before =>
        cases heq
        exact .inl ⟨before, i, after, rfl, hname, hclass, hafter⟩

theorem get?_recordClass (table : NameTable) (i : Interface) (name : String) :
    (recordClass table i).get? name =
      (if i.impl.selfType.baseName? = some name then some i.className else none).or
        (table.get? name) := by
  rw [recordClass]
  cases hbase : i.impl.selfType.baseName? with
  | none => rfl
  | some base =>
    by_cases hname : base = name
    · subst hname
      rw [if_pos rfl]
      exact NameTable.get?_set_self _ _ _
    · rw [if_neg (by simpa using hname)]
      exact NameTable.get?_set_ne _ _ (Ne.symm hname)

theorem get?_foldl_recordClass (interfaces : List Interface) (table : NameTable) (name : String) :
    (interfaces.foldl recordClass table).get? name =
      (published? name interfaces).or (table.get? name) := by
  induction interfaces generalizing table with
  | nil => rfl
  | cons i interfaces ih =>
    rw [List.foldl_cons, ih, get?_recordClass, published?, Option.or_assoc]

theorem get?_record (g : Generator) (interfaces : List Interface) (name : String) :
    (g.record interfaces).annotator.classNames.get? name =
      (published? name interfaces).or (g.annotator.classNames.get? name) :=
  get?_foldl_recordClass interfaces _ name

theorem record_record (g : Generator) (interfaces rest : List Interface) :
    (g.record interfaces).record rest = g.record (interfaces ++ rest) := by
  simp only [record, List.foldl_append]

end Generator
end LuaBindings
