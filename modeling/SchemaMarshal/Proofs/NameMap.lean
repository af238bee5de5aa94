import Mathlib.Data.List.Sort
import Mathlib.Data.String.Basic
import SchemaMarshal.NameMap

/-! Laws of name maps that hold of their entry lists as a whole.

In an ordered map a name has at most one entry, and the names are determined by which of them the map
contains.
-/

set_option autoImplicit false

namespace SchemaMarshal.NameMap

variable {α : Type}

theorem length_names (map : NameMap α) : map.names.length = map.size := by
  simp [names, size]

theorem contains_iff (map : NameMap α) (name : String) : map.contains name ↔ name ∈ map.names :=
  find_isSome_iff name map.entries

theorem find_of_mem {name : String} {value : α} {entries : List (String × α)}
    (distinct : (entries.map (·.1)).Nodup) (member : (name, value) ∈ entries) :
    find name entries = some value := by
  induction entries with
  | nil => cases member
  | cons entry rest ih =>
    obtain ⟨key, first⟩ := entry
    simp only [List.map_cons, List.nodup_cons] at distinct
    rcases List.mem_cons.mp member with same | later
    · cases same
      simp [find]
    · have elsewhere : key ≠ name := by
        rintro rfl
        exact distinct.1 (List.mem_map.mpr ⟨(key, value), later, rfl⟩)
      simp only [find, elsewhere, if_false]
      exact ih distinct.2 later

@[simp] theorem mem_names_insert (map : NameMap α) (name other : String) (value : α) :
    other ∈ (map.insert name value).names ↔ other = name ∨ other ∈ map.names :=
  mem_names_put name other value map.entries

theorem Ordered.nodup {map : NameMap α} (ordered : map.Ordered) : map.names.Nodup :=
  (List.Pairwise.sortedLT ordered).nodup

theorem Ordered.get?_of_mem {map : NameMap α} (ordered : map.Ordered) {name : String} {value : α}
    (member : (name, value) ∈ map.entries) : map.get? name = some value :=
  find_of_mem ordered.nodup member

theorem Ordered.names_eq {first second : NameMap α} (firstOrdered : first.Ordered)
    (secondOrdered : second.Ordered) (same : ∀ name, name ∈ first.names ↔ name ∈ second.names) :
    first.names = second.names :=
  firstOrdered.sortedLT.eq_of_mem_iff secondOrdered.sortedLT same

end SchemaMarshal.NameMap
