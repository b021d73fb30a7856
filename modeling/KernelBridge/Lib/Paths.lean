import Mathlib.Tactic.Common

/-!
# Relative paths

The relative paths of POSIX, as the lists of their names from the top, and as text. Text is taken
apart at the slashes, and empty names and single dots are left out, so many texts stand for one path
(`parts`). The text that is written for a path (`text`) is one of them (`parts_text`), so different
paths have different texts (`text_inj`).
-/

namespace Paths

/-- A name that a directory can hold. -/
structure ValidName (name : String) : Prop where
  nonempty : name ≠ ""
  ne_dot : name ≠ "."
  ne_dots : name ≠ ".."
  no_slash : '/' ∉ name.toList

/-- A path that leads below where it starts: at least one name, and no step up. -/
structure Valid (path : List String) : Prop where
  ne_nil : path ≠ []
  names : ∀ name ∈ path, ValidName name

/-- The conditions on a name are decidable. -/
instance (name : String) : Decidable (ValidName name) :=
  decidable_of_iff (name ≠ "" ∧ name ≠ "." ∧ name ≠ ".." ∧ '/' ∉ name.toList)
    ⟨fun ⟨h₁, h₂, h₃, h₄⟩ => ⟨h₁, h₂, h₃, h₄⟩, fun h => ⟨h.1, h.2, h.3, h.4⟩⟩

/-- So are those on a path. -/
instance (path : List String) : Decidable (Valid path) :=
  decidable_of_iff (path ≠ [] ∧ ∀ name ∈ path, ValidName name)
    ⟨fun ⟨h₁, h₂⟩ => ⟨h₁, h₂⟩, fun h => ⟨h.1, h.2⟩⟩

/-- The text of a path. -/
def text (path : List String) : String := "/".intercalate path

/-- The names in a text. -/
def parts (s : String) : List String :=
  ((s.toList.splitOn '/').map String.ofList).filter fun name => decide (name ≠ "" ∧ name ≠ ".")

/-- The text starts at the root. -/
def isAbsolute (s : String) : Bool := s.toList.head? == some '/'

variable {path path' : List String}

/-- The characters of the text are those of the names, with slashes between them. -/
theorem toList_text : (text path).toList = ['/'].intercalate (path.map String.toList) :=
  String.toList_intercalate

/-- The names of a path are those in its text. -/
theorem parts_text (h : Valid path) : parts (text path) = path := by
  have hslash : ∀ l ∈ path.map String.toList, '/' ∉ l := by
    intro l hl
    obtain ⟨name, hname, rfl⟩ := List.mem_map.mp hl
    exact (h.names name hname).no_slash
  have hne : path.map String.toList ≠ [] := by simpa using h.ne_nil
  rw [parts, toList_text, List.splitOn_intercalate '/' hslash hne, List.map_map]
  have hid : String.ofList ∘ String.toList = id := funext fun _ => String.ofList_toList
  rw [hid, List.map_id, List.filter_eq_self]
  intro name hname
  have hvalid := h.names name hname
  exact decide_eq_true ⟨hvalid.nonempty, hvalid.ne_dot⟩

/-- Valid paths with the same text are the same. -/
theorem text_inj (h : Valid path) (h' : Valid path') : text path = text path' ↔ path = path' := by
  refine ⟨fun heq => ?_, congrArg text⟩
  rw [← parts_text h, heq, parts_text h']

/-- The text of a path starts with its first name. -/
theorem isAbsolute_text (h : Valid path) : isAbsolute (text path) = false := by
  obtain ⟨name, rest, rfl⟩ := List.exists_cons_of_ne_nil h.ne_nil
  have hvalid := h.names name List.mem_cons_self
  have hname : name.toList ≠ [] := fun hnil => hvalid.nonempty (String.toList_eq_nil_iff.mp hnil)
  obtain ⟨c, cs, hcs⟩ := List.exists_cons_of_ne_nil hname
  have hc : c ≠ '/' := fun heq => hvalid.no_slash (hcs ▸ heq ▸ List.mem_cons_self)
  have hhead : (['/'].intercalate ((name :: rest).map String.toList)).head? = some c := by
    cases rest <;> simp [List.intercalate, hcs]
  rw [isAbsolute, toList_text, hhead]
  simpa using hc

end Paths
