import SchemaMarshal.NameMap
import SchemaMarshal.Schema.Basic

/-! Where the types of files stand, by full name.

An index keeps, for each full name, a place in a list of files. A file that is entered takes over the
names of its types and leaves all others where they lead.
-/

set_option autoImplicit false

namespace SchemaMarshal

inductive Symbol where
  | message (message : Message)
  | enumeration (enumeration : Enumeration)
  deriving DecidableEq, Repr

namespace Symbol

inductive Kind where
  | message
  | enumeration
  deriving DecidableEq, Repr

def name : Symbol → String
  | .message declared => declared.name
  | .enumeration declared => declared.name

def fullName : Symbol → String
  | .message declared => declared.fullName
  | .enumeration declared => declared.fullName

def settings : Symbol → List Setting
  | .message declared => declared.settings
  | .enumeration declared => declared.settings

end Symbol

namespace SchemaFile

def symbols (file : SchemaFile) : List Symbol :=
  file.messages.map .message ++ file.enumerations.map .enumeration

def fullNames (file : SchemaFile) : List String := file.symbols.map Symbol.fullName

def restrict (file : SchemaFile) (keep : Symbol → Bool) : SchemaFile :=
  { file with
    messages := file.messages.filter fun message => keep (.message message)
    enumerations := file.enumerations.filter fun enumeration => keep (.enumeration enumeration) }

def symbolAt? (file : SchemaFile) (kind : Symbol.Kind) (place : Nat) : Option Symbol :=
  match kind with
  | .message => file.messages[place]?.map .message
  | .enumeration => file.enumerations[place]?.map .enumeration

theorem fullNames_eq (file : SchemaFile) :
    file.fullNames = file.messages.map (·.fullName) ++ file.enumerations.map (·.fullName) := by
  simp only [fullNames, symbols, List.map_append, List.map_map]
  rfl

theorem mem_fullNames_iff {file : SchemaFile} {name : String} :
    name ∈ file.fullNames ↔ ∃ symbol ∈ file.symbols, symbol.fullName = name :=
  List.mem_map

end SchemaFile

structure Location where
  file : Nat
  kind : Symbol.Kind
  place : Nat
  deriving DecidableEq, Repr

def Location.declarationIn? (location : Location) (files : List SchemaFile) : Option (SchemaFile × Symbol) :=
  match files[location.file]? with
  | none => none
  | some file => (file.symbolAt? location.kind location.place).map fun symbol => (file, symbol)

theorem Location.declarationIn?_eq_some_iff {location : Location} {files : List SchemaFile} {file : SchemaFile}
    {symbol : Symbol} :
    location.declarationIn? files = some (file, symbol) ↔
      files[location.file]? = some file ∧ file.symbolAt? location.kind location.place = some symbol := by
  unfold declarationIn?
  cases files[location.file]? with
  | none => simp
  | some listed =>
    simp only [Option.map_eq_some_iff, Prod.mk.injEq, Option.some.injEq]
    constructor
    · rintro ⟨_, found, rfl, rfl⟩
      exact ⟨rfl, found⟩
    · rintro ⟨rfl, found⟩
      exact ⟨symbol, found, rfl, rfl⟩

/-- Index entries for declarations of one kind in the file at `file`, the first of them at `place`. -/
def locate (file : Nat) (kind : Symbol.Kind) : Nat → List String → NameMap Location → NameMap Location
  | _, [], index => index
  | place, name :: rest, index => locate file kind (place + 1) rest (index.insert name ⟨file, kind, place⟩)

theorem ordered_locate (file : Nat) (kind : Symbol.Kind) (place : Nat) (names : List String)
    {index : NameMap Location} (ordered : index.Ordered) : (locate file kind place names index).Ordered := by
  induction names generalizing place index with
  | nil => exact ordered
  | cons name rest ih => exact ih (place + 1) (ordered.insert _ _)

theorem get?_locate_of_not_mem (file : Nat) (kind : Symbol.Kind) (place : Nat) {names : List String} {name : String}
    (index : NameMap Location) (absent : name ∉ names) :
    (locate file kind place names index).get? name = index.get? name := by
  induction names generalizing place index with
  | nil => rfl
  | cons first rest ih =>
    simp only [List.mem_cons, not_or] at absent
    rw [locate, ih _ _ absent.2, NameMap.get?_insert, if_neg (Ne.symm absent.1)]

-- A repeated name is found at its last place.
theorem get?_locate_of_mem (file : Nat) (kind : Symbol.Kind) (place : Nat) {names : List String} {name : String}
    (index : NameMap Location) (member : name ∈ names) :
    ∃ offset, names[offset]? = some name ∧
      (locate file kind place names index).get? name = some ⟨file, kind, place + offset⟩ := by
  induction names generalizing place index with
  | nil => cases member
  | cons first rest ih =>
    by_cases later : name ∈ rest
    · obtain ⟨offset, listed, found⟩ := ih (place + 1) (index.insert first ⟨file, kind, place⟩) later
      refine ⟨offset + 1, listed, ?_⟩
      rw [locate, found, Nat.add_assoc, Nat.add_comm 1]
    · have here : name = first := (List.mem_cons.mp member).resolve_right later
      refine ⟨0, by rw [here]; rfl, ?_⟩
      rw [locate, get?_locate_of_not_mem _ _ _ _ later, NameMap.get?_insert, if_pos here.symm]
      rfl

/-- The index with the types of a file at place `position`. A later declaration takes over the name
of an earlier one. -/
def enter (position : Nat) (file : SchemaFile) (index : NameMap Location) : NameMap Location :=
  locate position .enumeration 0 (file.enumerations.map (·.fullName))
    (locate position .message 0 (file.messages.map (·.fullName)) index)

theorem get?_enter_of_not_mem (position : Nat) {file : SchemaFile} {name : String} (index : NameMap Location)
    (absent : name ∉ file.fullNames) : (enter position file index).get? name = index.get? name := by
  rw [SchemaFile.fullNames_eq, List.mem_append, not_or] at absent
  rw [enter, get?_locate_of_not_mem _ _ _ _ absent.2, get?_locate_of_not_mem _ _ _ _ absent.1]

theorem get?_enter_of_mem (position : Nat) {file : SchemaFile} {name : String} (index : NameMap Location)
    (member : name ∈ file.fullNames) :
    ∃ kind place symbol, (enter position file index).get? name = some ⟨position, kind, place⟩ ∧
      file.symbolAt? kind place = some symbol ∧ symbol.fullName = name := by
  rw [SchemaFile.fullNames_eq, List.mem_append] at member
  -- Enumerations are entered last, so they decide where a name of both kinds leads.
  by_cases enumerated : name ∈ file.enumerations.map (·.fullName)
  · obtain ⟨place, listed, found⟩ := get?_locate_of_mem position .enumeration 0
      (locate position .message 0 (file.messages.map (·.fullName)) index) enumerated
    rw [List.getElem?_map] at listed
    rw [Nat.zero_add] at found
    obtain ⟨enumeration, here, named⟩ := Option.map_eq_some_iff.mp listed
    exact ⟨.enumeration, place, .enumeration enumeration, found, by simp [SchemaFile.symbolAt?, here], named⟩
  · obtain ⟨place, listed, found⟩ := get?_locate_of_mem position .message 0 index
      (member.resolve_right enumerated)
    rw [List.getElem?_map] at listed
    rw [Nat.zero_add] at found
    obtain ⟨message, here, named⟩ := Option.map_eq_some_iff.mp listed
    refine ⟨.message, place, .message message, ?_, by simp [SchemaFile.symbolAt?, here], named⟩
    rw [enter, get?_locate_of_not_mem _ _ _ _ enumerated, found]

/-- Every entry of the index leads to a declaration of that name in the files, and every name that they
declare has an entry. -/
structure Indexed (files : List SchemaFile) (index : NameMap Location) : Prop where
  ordered : index.Ordered
  located : ∀ ⦃name : String⦄ ⦃location : Location⦄, index.get? name = some location →
    ∃ file symbol, location.declarationIn? files = some (file, symbol) ∧ symbol.fullName = name
  covered : ∀ ⦃file : SchemaFile⦄, file ∈ files → ∀ ⦃name : String⦄, name ∈ file.fullNames → index.contains name

theorem indexed_nil : Indexed [] .empty where
  ordered := NameMap.ordered_empty
  located := by
    intro name location found
    cases found
  covered := by
    intro file listed
    cases listed

theorem Indexed.enter {files : List SchemaFile} {index : NameMap Location} (indexed : Indexed files index)
    (file : SchemaFile) : Indexed (files ++ [file]) (enter files.length file index) where
  ordered := ordered_locate _ _ _ _ (ordered_locate _ _ _ _ indexed.ordered)
  located := by
    intro name location found
    by_cases declared : name ∈ file.fullNames
    · obtain ⟨kind, place, symbol, here, listed, named⟩ := get?_enter_of_mem files.length index declared
      rw [here, Option.some.injEq] at found
      subst found
      exact ⟨file, symbol, Location.declarationIn?_eq_some_iff.mpr ⟨by simp, listed⟩, named⟩
    · rw [get?_enter_of_not_mem files.length index declared] at found
      obtain ⟨earlier, symbol, located, named⟩ := indexed.located found
      obtain ⟨listed, inside⟩ := Location.declarationIn?_eq_some_iff.mp located
      have bound : location.file < files.length := (List.getElem?_eq_some_iff.mp listed).1
      refine ⟨earlier, symbol, Location.declarationIn?_eq_some_iff.mpr ⟨?_, inside⟩, named⟩
      rw [List.getElem?_append_left bound, listed]
  covered := by
    intro other listed name named
    unfold NameMap.contains
    by_cases declared : name ∈ file.fullNames
    · obtain ⟨kind, place, _, here, -, -⟩ := get?_enter_of_mem files.length index declared
      rw [here]
      rfl
    · rw [get?_enter_of_not_mem files.length index declared]
      rcases List.mem_append.mp listed with earlier | added
      · exact indexed.covered earlier named
      · exact absurd (List.mem_singleton.mp added ▸ named) declared

end SchemaMarshal
