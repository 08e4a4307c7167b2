/-!
# Tables of names

A table gives a text for a name. Setting a name again replaces what it gave.
-/

set_option autoImplicit false

namespace LuaBindings

abbrev NameTable := List (String × String)

namespace NameTable

def get? (table : NameTable) (name : String) : Option String := table.lookup name

def set (table : NameTable) (name text : String) : NameTable :=
  (name, text) :: table.filter fun entry => entry.1 != name

def sorted (table : NameTable) : List (String × String) :=
  table.mergeSort fun a b => !decide (b.1 < a.1)

theorem get?_set_self (table : NameTable) (name text : String) :
    (table.set name text).get? name = some text := by
  simp only [set, get?, List.lookup_cons_self]

theorem get?_set_ne (table : NameTable) {name other : String} (text : String) (h : other ≠ name) :
    (table.set name text).get? other = table.get? other := by
  have hne : (other == name) = false := by simpa using h
  simp only [set, get?, List.lookup_cons, hne]
  induction table with
  | nil => rfl
  | cons entry table ih =>
    obtain ⟨key, value⟩ := entry
    by_cases hentry : key = name
    · have hskip : (other == key) = false := by rw [hentry]; exact hne
      rw [List.filter_cons_of_neg (by simpa using hentry), ih, List.lookup_cons, hskip]
    · rw [List.filter_cons_of_pos (by simpa using hentry), List.lookup_cons, List.lookup_cons, ih]

end NameTable
end LuaBindings
