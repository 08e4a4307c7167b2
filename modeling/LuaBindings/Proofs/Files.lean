import LuaBindings.Files
import LuaBindings.Proofs.PathName
import Mathlib.Data.List.Infix
import Mathlib.Data.List.Nodup

/-!
# What a write changes

A write sets the content of the path that its name stands for, and nothing else. In particular
it makes no directory, so names keep standing for the paths that they stood for.
-/

set_option autoImplicit false

namespace LuaBindings.Files

variable {files other : Files} {path found : Path} {content : List UInt8} {name : String}

/-! ### Directories -/

theorem isDirectory_iff (files : Files) (path : Path) :
    files.isDirectory path = true ↔
      path = root ∨ (∀ step ∈ path, step = "..") ∨ (∃ made ∈ files.directories, path <+: made) ∨
        ∃ entry ∈ files.contents, path <+: entry.1 ∧ entry.1 ≠ path := by
  simp [isDirectory, or_assoc]

theorem isDirectory_front {front : Path} (hfront : front <+: path)
    (h : files.isDirectory path = true) : files.isDirectory front = true := by
  rw [isDirectory_iff] at h ⊢
  rcases h with rfl | h | ⟨made, hmade, h⟩ | ⟨entry, hentry, h, hne⟩
  · rcases List.prefix_cons_iff.1 hfront with rfl | ⟨rest, rfl, hrest⟩
    · exact .inr (.inl (by simp))
    · rw [List.prefix_nil.1 hrest]
      exact .inl rfl
  · exact .inr (.inl fun step hstep => h step (hfront.subset hstep))
  · exact .inr (.inr (.inl ⟨made, hmade, hfront.trans h⟩))
  · refine .inr (.inr (.inr ⟨entry, hentry, hfront.trans h, ?_⟩))
    rintro rfl
    exact hne (List.IsPrefix.eq_of_length_le hfront h.length_le)

def Enclosed (files : Files) (path : Path) : Prop :=
  ∀ front, front <+: path → front ≠ path → files.isDirectory front = true

theorem isDirectory_parent (h : files.isDirectory path = true) :
    files.isDirectory (parent path) = true := by
  rw [parent]
  split
  · exact (isDirectory_iff files root).2 (.inl rfl)
  · split
    · rename_i hup
      refine (isDirectory_iff files _).2 (.inr (.inl fun step hstep => ?_))
      rcases List.mem_append.1 hstep with hstep | hstep
      · simpa using List.all_eq_true.1 hup step hstep
      · exact List.mem_singleton.1 hstep
    · exact isDirectory_front (List.dropLast_prefix path) h

theorem enclosed_of_walk {steps : List String} {found : Path}
    (h : files.isDirectory path = true) (hwalk : files.walk path steps = .ok found) :
    files.Enclosed found := by
  induction steps generalizing path with
  | nil =>
    cases hwalk
    exact fun front hfront _ => isDirectory_front hfront h
  | cons step rest ih =>
    rw [walk] at hwalk
    split at hwalk
    · exact ih (isDirectory_parent h) hwalk
    · dsimp only at hwalk
      split at hwalk
      · cases hwalk
        intro front hfront hne
        rcases List.prefix_concat_iff.1 hfront with rfl | hfront
        · exact absurd rfl hne
        · exact isDirectory_front hfront h
      · split at hwalk
        · rename_i hdirectory
          exact ih hdirectory hwalk
        · cases hwalk

theorem isDirectory_start (files : Files) : files.isDirectory [] = true :=
  (isDirectory_iff files []).2 (.inr (.inl (by simp)))

theorem enclosed_of_locate (h : files.locate name = .ok path) : files.Enclosed path := by
  rw [locate] at h
  split at h
  · cases h
  · exact enclosed_of_walk (isDirectory_start files) h

/-- Making directories leaves what the files hold. -/
theorem contents_makeFrom {steps : List String} (h : files.makeFrom path steps = .ok other) :
    other.contents = files.contents := by
  induction steps generalizing files path with
  | nil =>
    cases h
    rfl
  | cons step rest ih =>
    rw [makeFrom] at h
    split at h
    · exact ih h
    · dsimp only at h
      split at h
      · exact ih h
      · split at h
        · cases h
        · have hmade := ih h
          exact hmade

theorem contents_makeDirectory (h : files.makeDirectory name = .ok other) :
    other.contents = files.contents := by
  rw [makeDirectory] at h
  split at h
  · cases h
  · exact contents_makeFrom h

/-! ### Setting a content -/

theorem isDirectory_put (h : files.Enclosed path) (content : List UInt8) :
    (files.put path content).isDirectory = files.isDirectory := by
  funext front
  refine Bool.eq_iff_iff.2 ⟨fun hput => ?_, fun hfiles => ?_⟩
  · by_cases hfront : front <+: path ∧ front ≠ path
    · exact h front hfront.1 hfront.2
    · rw [isDirectory_iff] at hput ⊢
      rcases hput with hput | hput | hput | ⟨entry, hentry, hbelow, hne⟩
      · exact .inl hput
      · exact .inr (.inl hput)
      · exact .inr (.inr (.inl hput))
      · rcases List.mem_cons.1 hentry with rfl | hentry
        · exact absurd ⟨hbelow, hne.symm⟩ hfront
        · exact .inr (.inr (.inr ⟨entry, (List.mem_filter.1 hentry).1, hbelow, hne⟩))
  · rw [isDirectory_iff] at hfiles ⊢
    rcases hfiles with hfiles | hfiles | hfiles | ⟨entry, hentry, hbelow, hne⟩
    · exact .inl hfiles
    · exact .inr (.inl hfiles)
    · exact .inr (.inr (.inl hfiles))
    · by_cases hpath : entry.1 = path
      · exact .inr (.inr (.inr ⟨(path, content), List.mem_cons_self, hpath ▸ hbelow, hpath ▸ hne⟩))
      · refine .inr (.inr (.inr ⟨entry, List.mem_cons_of_mem _ ?_, hbelow, hne⟩))
        exact List.mem_filter.2 ⟨hentry, by simpa using hpath⟩

theorem content?_put_self (files : Files) (path : Path) (content : List UInt8) :
    (files.put path content).content? path = some content := by
  simp [content?, put]

theorem content?_put_ne {asked : Path} (h : asked ≠ path) (files : Files) (content : List UInt8) :
    (files.put path content).content? asked = files.content? asked := by
  have hfirst : ((path, content).1 == asked) = false := by simpa using h.symm
  rw [content?, put, List.find?_cons_of_neg (by simp [hfirst]), List.find?_filter, content?]
  congr 2
  funext entry
  by_cases hasked : entry.1 = asked
  · simp [hasked, h]
  · simp [hasked]

/-! ### Where names lead -/

theorem walk_congr (h : files.isDirectory = other.isDirectory) (path : Path) (steps : List String) :
    (files.walk path steps).toOption = (other.walk path steps).toOption := by
  induction steps generalizing path with
  | nil => rfl
  | cons step rest ih =>
    rw [walk, walk]
    split
    · exact ih _
    · dsimp only
      rw [h]
      split
      · rfl
      · split
        · exact ih _
        · rfl

/-- Where a name leads depends on the directories. -/
theorem locate_congr (h : files.isDirectory = other.isDirectory) (name : String) :
    (files.locate name).toOption = (other.locate name).toOption := by
  rw [locate, locate]
  split
  · rfl
  · exact walk_congr h [] _

/-- A step to a member comes last on the way that is found. -/
theorem walk_member {front : List String} {member : String} (hmember : member ≠ "..")
    (h : files.walk path (front ++ [member]) = .ok found) : ∃ base, found = base ++ [member] := by
  induction front generalizing path with
  | nil =>
    rw [List.nil_append, walk, if_neg hmember] at h
    cases h
    exact ⟨path, rfl⟩
  | cons step front ih =>
    rw [List.cons_append, walk] at h
    split at h
    · exact ih h
    · have hmore : (front ++ [member]).isEmpty = false := by simp
      rw [hmore] at h
      dsimp only at h
      rw [if_neg Bool.false_ne_true] at h
      split at h
      · exact ih h
      · cases h

/-- The name of a member of a directory leads to a path that ends in the member. -/
theorem locate_join {directory member : String} (hslash : '/' ∉ member.toList)
    (hplain : member ≠ "" ∧ member ≠ "." ∧ member ≠ "..")
    (h : files.locate (Text.PathName.join directory member) = .ok path) :
    ∃ base, path = base ++ [member] := by
  obtain ⟨front, hcomponents⟩ := Text.PathName.components_join directory hslash
  have hsteps : ∃ front, steps (Text.PathName.join directory member) = front ++ [member] := by
    have hkept : (member != "" && member != ".") = true := by simp [hplain.1, hplain.2.1]
    rw [steps, hcomponents, List.filter_append, List.filter_singleton, hkept, cond_true]
    split
    · exact ⟨root ++ front.filter _, (List.append_assoc _ _ _).symm⟩
    · exact ⟨_, rfl⟩
  obtain ⟨front, hsteps⟩ := hsteps
  rw [locate] at h
  split at h
  · cases h
  · rw [hsteps] at h
    exact walk_member hplain.2.2 h

theorem read_toOption (files : Files) (name : String) :
    (files.read name).toOption = (files.locate name).toOption.bind files.content? := by
  rw [read]
  cases files.locate name with
  | error fault => rfl
  | ok path =>
    change _ = files.content? path
    dsimp only
    cases files.content? path with
    | some content => rfl
    | none =>
      dsimp only
      split <;> rfl

/-- The path that a name stands for, if a content can be set there. -/
def place? (files : Files) (name : String) : Option Path :=
  (files.locate name).toOption.filter fun path => !files.isDirectory path

theorem place?_congr (h : files.isDirectory = other.isDirectory) (name : String) :
    files.place? name = other.place? name := by
  rw [place?, place?, locate_congr h, h]

theorem locate_of_place (h : files.place? name = some path) : files.locate name = .ok path := by
  rw [place?, Option.filter_eq_some_iff] at h
  cases hlocate : files.locate name with
  | error fault =>
    rw [hlocate] at h
    cases h.1
  | ok found =>
    rw [hlocate] at h
    cases h.1
    rfl

theorem write_of_place (h : files.place? name = some path) (content : List UInt8) :
    files.write name content = .ok (files.put path content) := by
  have hfree : files.isDirectory path = false := by
    rw [place?, Option.filter_eq_some_iff] at h
    simpa using h.2
  rw [write, locate_of_place h]
  dsimp only
  rw [hfree]
  rfl

theorem write_of_place_eq_none (h : files.place? name = none) (content : List UInt8) :
    ∃ fault, files.write name content = .error fault := by
  rw [write]
  cases hlocate : files.locate name with
  | error fault => exact ⟨fault, rfl⟩
  | ok found =>
    rw [place?, hlocate] at h
    have hdirectory : files.isDirectory found = true := by
      simpa [Except.toOption, Option.filter_some] using h
    dsimp only
    rw [if_pos hdirectory]
    exact ⟨_, rfl⟩

/-! ### Setting contents one after the other -/

def putAll (files : Files) (writes : List (Path × List UInt8)) : Files :=
  writes.foldl (fun files entry => files.put entry.1 entry.2) files

theorem putAll_append (files : Files) (writes rest : List (Path × List UInt8)) :
    files.putAll (writes ++ rest) = (files.putAll writes).putAll rest := List.foldl_append

variable {writes : List (Path × List UInt8)}

theorem content?_putAll_of_notMem (h : path ∉ writes.map Prod.fst) (files : Files) :
    (files.putAll writes).content? path = files.content? path := by
  induction writes generalizing files with
  | nil => rfl
  | cons entry writes ih =>
    rw [List.map_cons, List.mem_cons, not_or] at h
    change ((files.put entry.1 entry.2).putAll writes).content? path = _
    rw [ih h.2, content?_put_ne h.1]

/-- What is written at a path holds, if all that is written there is the same. -/
theorem content?_putAll_of_agree (hagree : ∀ entry ∈ writes, entry.1 = path → entry.2 = content)
    (h : path ∈ writes.map Prod.fst) (files : Files) :
    (files.putAll writes).content? path = some content := by
  induction writes generalizing files with
  | nil => cases h
  | cons entry writes ih =>
    rw [List.forall_mem_cons] at hagree
    change ((files.put entry.1 entry.2).putAll writes).content? path = _
    by_cases hlater : path ∈ writes.map Prod.fst
    · exact ih hagree.2 hlater _
    · have hfirst : entry.1 = path := ((List.mem_cons.1 h).resolve_right hlater).symm
      rw [content?_putAll_of_notMem hlater, hfirst, content?_put_self, hagree.1 hfirst]

theorem content?_putAll_of_mem (hdistinct : (writes.map Prod.fst).Nodup)
    (h : (path, content) ∈ writes) (files : Files) :
    (files.putAll writes).content? path = some content := by
  refine content?_putAll_of_agree (fun entry hentry hpath => ?_) (List.mem_map_of_mem h) files
  rw [List.inj_on_of_nodup_map hdistinct hentry h hpath]

theorem isDirectory_putAll (h : ∀ entry ∈ writes, files.Enclosed entry.1) :
    (files.putAll writes).isDirectory = files.isDirectory := by
  induction writes generalizing files with
  | nil => rfl
  | cons entry writes ih =>
    rw [List.forall_mem_cons] at h
    have hput : (files.put entry.1 entry.2).isDirectory = files.isDirectory :=
      isDirectory_put h.1 entry.2
    change ((files.put entry.1 entry.2).putAll writes).isDirectory = _
    rw [ih, hput]
    intro other hother front hfront hne
    rw [hput]
    exact h.2 other hother front hfront hne

/-! ### Files that are read alike -/

/-- Names lead to the same paths, and under the given names the same is read. -/
structure Alike (files other : Files) (names : List String) : Prop where
  directories : files.isDirectory = other.isDirectory
  contents : ∀ name ∈ names, (files.read name).toOption = (other.read name).toOption

theorem Alike.refl (files : Files) (names : List String) : files.Alike files names :=
  ⟨rfl, fun _ _ => rfl⟩

variable {names : List String}

theorem Alike.of_cons (h : files.Alike other (name :: names)) : files.Alike other names :=
  ⟨h.directories, fun name hname => h.contents name (List.mem_cons_of_mem _ hname)⟩

theorem Alike.enclosed (h : files.Alike other names) (henclosed : files.Enclosed path) :
    other.Enclosed path := by
  intro front hfront hne
  rw [← h.directories]
  exact henclosed front hfront hne

/-- Writes do not show under names that lead elsewhere, or where they set what is held anyway. -/
theorem Alike.putAll (h : files.Alike other names)
    (henclosed : ∀ entry ∈ writes, files.Enclosed entry.1)
    (hharmless : ∀ entry ∈ writes, ∀ name ∈ names,
      (files.locate name).toOption = some entry.1 → files.content? entry.1 = some entry.2) :
    files.Alike (other.putAll writes) names := by
  have hdirectories : (other.putAll writes).isDirectory = other.isDirectory :=
    isDirectory_putAll fun entry hentry => h.enclosed (henclosed entry hentry)
  refine ⟨h.directories.trans hdirectories.symm, fun name hname => ?_⟩
  rw [h.contents name hname, read_toOption, read_toOption, locate_congr hdirectories]
  cases hlocate : (other.locate name).toOption with
  | none => rfl
  | some path =>
    have hlocate' : (files.locate name).toOption = some path :=
      (locate_congr h.directories name).trans hlocate
    by_cases hmem : path ∈ writes.map Prod.fst
    · obtain ⟨entry, hentry, rfl⟩ := List.mem_map.1 hmem
      have hheld : files.content? entry.1 = some entry.2 :=
        hharmless entry hentry name hname hlocate'
      have hread := h.contents name hname
      rw [read_toOption, read_toOption, hlocate', hlocate, Option.bind_some, Option.bind_some,
        hheld] at hread
      refine hread.symm.trans (content?_putAll_of_agree (fun later hlater hpath => ?_) hmem _).symm
      have hlater := hharmless later hlater name hname (by rw [hlocate', hpath])
      rw [hpath, hheld] at hlater
      exact (Option.some.inj hlater).symm
    · exact (content?_putAll_of_notMem hmem other).symm

/-! ### Files that differ at some paths -/

/-- The same paths hold something, and outside the given paths they hold the same. -/
structure AgreeOutside (paths : Path → Prop) (files other : Files) : Prop where
  directories : files.isDirectory = other.isDirectory
  present : ∀ path, (files.content? path).isSome = (other.content? path).isSome
  contents : ∀ path, ¬paths path → files.content? path = other.content? path

variable {paths : Path → Prop}

theorem AgreeOutside.refl (paths : Path → Prop) (files : Files) : AgreeOutside paths files files :=
  ⟨rfl, fun _ => rfl, fun _ _ => rfl⟩

theorem AgreeOutside.mono {more : Path → Prop} (h : AgreeOutside paths files other)
    (hmore : ∀ path, paths path → more path) : AgreeOutside more files other :=
  ⟨h.directories, h.present, fun path hpath => h.contents path (mt (hmore path) hpath)⟩

theorem AgreeOutside.walk_eq (h : AgreeOutside paths files other) (path : Path)
    (steps : List String) : files.walk path steps = other.walk path steps := by
  induction steps generalizing path with
  | nil => rfl
  | cons step rest ih => simp only [walk, stopFault, h.directories, h.present, ih]

/-- Where a name leads, and why it leads nowhere, does not depend on the contents. -/
theorem AgreeOutside.locate_eq (h : AgreeOutside paths files other) (name : String) :
    files.locate name = other.locate name := by
  rw [locate, locate, h.walk_eq]

theorem AgreeOutside.read_eq (h : AgreeOutside paths files other)
    (hname : ∀ path, files.locate name = .ok path → ¬paths path) :
    files.read name = other.read name := by
  rw [read, read, ← h.locate_eq]
  cases hlocate : files.locate name with
  | error fault => rfl
  | ok path =>
    dsimp only
    rw [h.contents path (hname path hlocate), h.directories]

theorem AgreeOutside.put (h : AgreeOutside paths files other) (henclosed : files.Enclosed path)
    {content' : List UInt8} (hsame : content = content' ∨ paths path) :
    AgreeOutside paths (files.put path content) (other.put path content') := by
  have henclosed' : other.Enclosed path := fun front hfront hne => by
    rw [← h.directories]
    exact henclosed front hfront hne
  refine ⟨?_, fun asked => ?_, fun asked hasked => ?_⟩
  · rw [isDirectory_put henclosed, isDirectory_put henclosed', h.directories]
  · by_cases hpath : asked = path
    · rw [hpath, content?_put_self, content?_put_self]
      rfl
    · rw [content?_put_ne hpath, content?_put_ne hpath, h.present]
  · by_cases hpath : asked = path
    · subst hpath
      rw [content?_put_self, content?_put_self, hsame.resolve_right hasked]
    · rw [content?_put_ne hpath, content?_put_ne hpath, h.contents asked hasked]

end LuaBindings.Files
