/-! Finite maps from names, kept in the order of the names.

Names compare by code points. A map built by `insert` keeps its names strictly increasing, so a name
has at most one entry there. A map of any entries is still a map: maps hold the values of records and
the nodes of directories, and a type that is part of its own entries has no place for a law on them.
-/

set_option autoImplicit false

namespace SchemaMarshal

structure NameMap (α : Type) where
  entries : List (String × α)
  deriving DecidableEq, Repr

namespace NameMap

variable {α : Type}

def empty : NameMap α := ⟨[]⟩

def names (map : NameMap α) : List String := map.entries.map (·.1)

def size (map : NameMap α) : Nat := map.entries.length

def find (name : String) : List (String × α) → Option α
  | [] => none
  | (key, value) :: rest => if key = name then some value else find name rest

def get? (map : NameMap α) (name : String) : Option α := find name map.entries

def contains (map : NameMap α) (name : String) : Bool := (map.get? name).isSome

/-- Put an entry in front of the first greater name, in place of an entry of the same name. -/
def put (name : String) (value : α) : List (String × α) → List (String × α)
  | [] => [(name, value)]
  | (key, old) :: rest =>
      if key = name then (name, value) :: rest
      else if name < key then (name, value) :: (key, old) :: rest
      else (key, old) :: put name value rest

def insert (map : NameMap α) (name : String) (value : α) : NameMap α := ⟨put name value map.entries⟩

theorem find_put (name other : String) (value : α) (entries : List (String × α)) :
    find other (put name value entries) = if name = other then some value else find other entries := by
  induction entries with
  | nil => rfl
  | cons entry rest ih =>
    obtain ⟨key, old⟩ := entry
    unfold put
    split
    · rename_i same
      subst same
      simp only [find]
      split <;> rfl
    · rename_i different
      split
      · rfl
      · simp only [find, ih]
        by_cases here : key = other
        · subst here
          simp [Ne.symm different]
        · simp [here]

theorem get?_insert (map : NameMap α) (name other : String) (value : α) :
    (map.insert name value).get? other = if name = other then some value else map.get? other :=
  find_put name other value map.entries

theorem find_isSome_iff (name : String) (entries : List (String × α)) :
    (find name entries).isSome ↔ name ∈ entries.map (·.1) := by
  induction entries with
  | nil => simp [find]
  | cons entry rest ih =>
    obtain ⟨key, value⟩ := entry
    by_cases here : key = name
    · simp [find, here]
    · simp only [find, here, if_false, ih, List.map_cons, List.mem_cons]
      constructor
      · exact Or.inr
      · rintro (same | member)
        · exact absurd same.symm here
        · exact member

theorem mem_names_put (name other : String) (value : α) (entries : List (String × α)) :
    other ∈ (put name value entries).map (·.1) ↔ other = name ∨ other ∈ entries.map (·.1) := by
  rw [← find_isSome_iff, find_put, ← find_isSome_iff]
  by_cases same : name = other
  · simp [same]
  · simp [same, Ne.symm same]

def Ordered (map : NameMap α) : Prop := map.names.Pairwise (· < ·)

theorem ordered_empty : (empty : NameMap α).Ordered := List.Pairwise.nil

theorem pairwise_put (name : String) (value : α) {entries : List (String × α)}
    (sorted : (entries.map (·.1)).Pairwise (· < ·)) :
    ((put name value entries).map (·.1)).Pairwise (· < ·) := by
  induction entries with
  | nil => exact List.pairwise_singleton _ _
  | cons entry rest ih =>
    obtain ⟨key, old⟩ := entry
    have tail := List.pairwise_cons.mp sorted
    unfold put
    split
    · rename_i same
      subst same
      exact sorted
    · rename_i different
      split
      · rename_i before
        refine List.pairwise_cons.mpr ⟨?_, sorted⟩
        intro other member
        rcases List.mem_cons.mp member with same | later
        · exact same ▸ before
        · exact String.lt_trans before (tail.1 other later)
      · rename_i notBefore
        refine List.pairwise_cons.mpr ⟨?_, ih tail.2⟩
        intro other member
        rcases (mem_names_put name other value rest).mp member with same | later
        · exact same ▸ Std.lt_of_le_of_ne (String.not_lt.mp notBefore) different
        · exact tail.1 other later

theorem Ordered.insert {map : NameMap α} (ordered : map.Ordered) (name : String) (value : α) :
    (map.insert name value).Ordered :=
  pairwise_put name value ordered

end NameMap

end SchemaMarshal
