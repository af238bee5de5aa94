import Mathlib.Algebra.Ring.Nat
import Mathlib.Data.List.Nodup
import SchemaMarshal.Proofs.NameMap
import SchemaMarshal.SymbolTable

/-! What a symbol table answers about its files, along every sequence of registrations.

The index of a table is faithful to its files by construction. That a full name stands for one
declaration only is kept as long as no single file repeats a full name.
-/

set_option autoImplicit false

namespace SchemaMarshal

namespace SchemaFile

def count (file : SchemaFile) : Symbol.Kind → Nat
  | .message => file.messages.length
  | .enumeration => file.enumerations.length

theorem symbols_restrict (file : SchemaFile) (keep : Symbol → Bool) :
    (file.restrict keep).symbols = file.symbols.filter keep := by
  simp only [symbols, restrict, List.filter_append, List.filter_map]
  rfl

theorem length_symbols (file : SchemaFile) : file.symbols.length = file.typeCount := by
  simp [symbols, typeCount]

theorem symbolAt?_mem {file : SchemaFile} {kind : Symbol.Kind} {place : Nat} {symbol : Symbol}
    (found : file.symbolAt? kind place = some symbol) : symbol ∈ file.symbols := by
  cases kind with
  | message =>
    obtain ⟨message, listed, rfl⟩ := Option.map_eq_some_iff.mp found
    exact List.mem_append_left _ (List.mem_map_of_mem (List.mem_of_getElem? listed))
  | enumeration =>
    obtain ⟨enumeration, listed, rfl⟩ := Option.map_eq_some_iff.mp found
    exact List.mem_append_right _ (List.mem_map_of_mem (List.mem_of_getElem? listed))

theorem symbolAt?_lt {file : SchemaFile} {kind : Symbol.Kind} {place : Nat} {symbol : Symbol}
    (found : file.symbolAt? kind place = some symbol) : place < file.count kind := by
  cases kind with
  | message =>
    obtain ⟨message, listed, -⟩ := Option.map_eq_some_iff.mp found
    exact (List.getElem?_eq_some_iff.mp listed).1
  | enumeration =>
    obtain ⟨enumeration, listed, -⟩ := Option.map_eq_some_iff.mp found
    exact (List.getElem?_eq_some_iff.mp listed).1

end SchemaFile

namespace SymbolTable

def symbols (table : SymbolTable) : List Symbol := table.files.flatMap SchemaFile.symbols

theorem mem_symbols_iff {table : SymbolTable} {symbol : Symbol} :
    symbol ∈ table.symbols ↔ ∃ file ∈ table.files, symbol ∈ file.symbols :=
  List.mem_flatMap

theorem map_fullName_symbols (table : SymbolTable) :
    table.symbols.map Symbol.fullName = table.files.flatMap SchemaFile.fullNames :=
  List.map_flatMap

theorem symbols_append (table : SymbolTable) (file : SchemaFile) :
    (table.append file).symbols = table.symbols ++ file.symbols := by
  simp [symbols, append]

section

variable {table : SymbolTable}

theorem contains_fullName {symbol : Symbol} (member : symbol ∈ table.symbols) : table.contains symbol.fullName := by
  obtain ⟨file, listed, declared⟩ := mem_symbols_iff.mp member
  exact table.indexed.covered listed (SchemaFile.mem_fullNames_iff.mpr ⟨symbol, declared, rfl⟩)

theorem declaration?_of_contains {name : String} (contained : table.contains name) :
    ∃ file symbol, table.declaration? name = some (file, symbol) := by
  obtain ⟨location, found⟩ := Option.isSome_iff_exists.mp contained
  obtain ⟨file, symbol, located, -⟩ := table.indexed.located found
  exact ⟨file, symbol, by simp [declaration?, found, located]⟩

theorem of_declaration? {name : String} {file : SchemaFile} {symbol : Symbol}
    (declared : table.declaration? name = some (file, symbol)) :
    file ∈ table.files ∧ symbol ∈ file.symbols ∧ symbol.fullName = name := by
  obtain ⟨location, found, located⟩ := Option.bind_eq_some_iff.mp declared
  obtain ⟨listed, inside⟩ := Location.declarationIn?_eq_some_iff.mp located
  obtain ⟨_, _, again, named⟩ := table.indexed.located found
  rw [located, Option.some.injEq, Prod.mk.injEq] at again
  exact ⟨List.mem_of_getElem? listed, SchemaFile.symbolAt?_mem inside, again.2 ▸ named⟩

theorem of_get? {name : String} {symbol : Symbol} (found : table.get? name = some symbol) :
    symbol ∈ table.symbols ∧ symbol.fullName = name := by
  obtain ⟨⟨file, _⟩, declared, rfl⟩ := Option.map_eq_some_iff.mp found
  obtain ⟨listed, member, named⟩ := of_declaration? declared
  exact ⟨mem_symbols_iff.mpr ⟨file, listed, member⟩, named⟩

theorem contains_iff_declared {name : String} :
    table.contains name ↔ ∃ symbol ∈ table.symbols, symbol.fullName = name := by
  constructor
  · intro contained
    obtain ⟨file, symbol, declared⟩ := declaration?_of_contains contained
    obtain ⟨listed, member, named⟩ := of_declaration? declared
    exact ⟨symbol, mem_symbols_iff.mpr ⟨file, listed, member⟩, named⟩
  · intro declared
    obtain ⟨symbol, member, rfl⟩ := declared
    exact contains_fullName member

theorem get?_isSome_iff {name : String} : (table.get? name).isSome ↔ table.contains name := by
  constructor
  · intro found
    obtain ⟨symbol, found⟩ := Option.isSome_iff_exists.mp found
    obtain ⟨member, rfl⟩ := of_get? found
    exact contains_fullName member
  · intro contained
    obtain ⟨file, symbol, declared⟩ := declaration?_of_contains contained
    simp [get?, declared]

theorem get?_eq_none_iff {name : String} :
    table.get? name = none ↔ ∀ symbol ∈ table.symbols, symbol.fullName ≠ name := by
  rw [← Option.not_isSome_iff_eq_none, get?_isSome_iff, contains_iff_declared]
  simp

end

theorem standing_eq_fresh_iff {table : SymbolTable} {symbol : Symbol} :
    table.standing symbol = .fresh ↔ table.get? symbol.fullName = none := by
  unfold standing get?
  split
  · rename_i absent
    simp [absent]
  · rename_i file registered declared
    split <;> simp [declared]

theorem conflict?_eq_none_iff {table : SymbolTable} {second : Identifier} {symbol : Symbol} :
    table.conflict? second symbol = none ↔
      ∀ registered, table.get? symbol.fullName = some registered → registered = symbol := by
  unfold conflict? standing get?
  split
  · rename_i conflicting
    split at conflicting
    · cases conflicting
    · rename_i file registered declared
      split at conflicting
      · cases conflicting
      · rename_i different
        simp [declared, different]
  · rename_i harmless
    split at harmless
    · rename_i absent
      simp [absent]
    · rename_i file registered declared
      split at harmless
      · rename_i same
        simp [declared, same]
      · exact absurd rfl (harmless _)

/-- What a successful registration found and did. -/
theorem register_cases {table : SymbolTable} {file : SchemaFile} {registration : Registration}
    (registered : table.register file = .ok registration) :
    (registration = .skipped ∧ file ∈ table.files) ∨
      (∀ symbol ∈ file.symbols, table.conflict? file.identifier symbol = none) ∧
        registration = .added (table.append (file.restrict fun symbol => table.standing symbol = .fresh)) := by
  unfold register at registered
  split at registered
  · rename_i member
    cases registered
    exact Or.inl ⟨rfl, member⟩
  · split at registered
    · cases registered
    · rename_i harmless
      cases registered
      exact Or.inr ⟨List.findSome?_eq_none_iff.mp harmless, rfl⟩

/-- The table after a file was offered to it. A refused file leaves it as it was. -/
def offered (table : SymbolTable) (file : SchemaFile) : SymbolTable :=
  match table.register file with
  | .ok registration => registration.tableFrom table
  | .error _ => table

theorem offered_of_ok {table : SymbolTable} {file : SchemaFile} {registration : Registration}
    (registered : table.register file = .ok registration) : table.offered file = registration.tableFrom table := by
  simp only [offered, registered]

theorem offered_of_error {table : SymbolTable} {file : SchemaFile} {duplicate : DuplicateType}
    (refused : table.register file = .error duplicate) : table.offered file = table := by
  simp only [offered, refused]

theorem offered_cases (table : SymbolTable) (file : SchemaFile) :
    table.offered file = table ∨
      table.offered file = table.append (file.restrict fun symbol => table.standing symbol = .fresh) := by
  unfold offered
  split
  · rename_i registration registered
    rcases register_cases registered with ⟨rfl, -⟩ | ⟨-, rfl⟩
    · exact Or.inl rfl
    · exact Or.inr rfl
  · exact Or.inl rfl

/-- No full name is declared twice, in one file or in two. -/
def Unambiguous (table : SymbolTable) : Prop := (table.symbols.map Symbol.fullName).Nodup

theorem unambiguous_empty (reservedPackage : String) : (empty reservedPackage).Unambiguous :=
  List.nodup_nil

theorem Unambiguous.append_fresh {table : SymbolTable} (unambiguous : table.Unambiguous) {file : SchemaFile} (distinct : file.fullNames.Nodup) :
    (table.append (file.restrict fun symbol => table.standing symbol = .fresh)).Unambiguous := by
  unfold Unambiguous
  rw [symbols_append, SchemaFile.symbols_restrict, List.map_append]
  refine List.Nodup.append unambiguous (distinct.sublist (List.filter_sublist.map _)) ?_
  -- What is kept of the file was not registered under its name.
  intro name earlier added
  obtain ⟨registered, member, rfl⟩ := List.mem_map.mp earlier
  obtain ⟨symbol, kept, same⟩ := List.mem_map.mp added
  have fresh := standing_eq_fresh_iff.mp (of_decide_eq_true (List.mem_filter.mp kept).2)
  exact get?_eq_none_iff.mp fresh registered member same.symm

theorem Unambiguous.offered {table : SymbolTable} (unambiguous : table.Unambiguous) {file : SchemaFile} (distinct : file.fullNames.Nodup) :
    (table.offered file).Unambiguous := by
  rcases offered_cases table file with same | added
  · rw [same]
    exact unambiguous
  · rw [added]
    exact unambiguous.append_fresh distinct

theorem Unambiguous.eq_of_fullName {table : SymbolTable} (unambiguous : table.Unambiguous)
    {first second : Symbol} (firstMember : first ∈ table.symbols) (secondMember : second ∈ table.symbols)
    (same : first.fullName = second.fullName) : first = second :=
  List.inj_on_of_nodup_map unambiguous firstMember secondMember same

theorem Unambiguous.get?_fullName {table : SymbolTable} (unambiguous : table.Unambiguous)
    {symbol : Symbol} (member : symbol ∈ table.symbols) :
    table.get? symbol.fullName = some symbol := by
  obtain ⟨found, lookup⟩ := Option.isSome_iff_exists.mp (get?_isSome_iff.mpr (contains_fullName member))
  obtain ⟨registered, named⟩ := of_get? lookup
  rw [lookup, unambiguous.eq_of_fullName registered member named]

-- Both lists of names are free of repetition, so having the same members they are as long.
theorem Unambiguous.size_eq {table : SymbolTable} (unambiguous : table.Unambiguous) :
    table.size = (table.files.map SchemaFile.typeCount).sum := by
  have sameNames : table.index.names.Perm (table.symbols.map Symbol.fullName) := by
    refine (List.perm_ext_iff_of_nodup table.indexed.ordered.nodup unambiguous).mpr ?_
    intro name
    rw [← NameMap.contains_iff, List.mem_map]
    exact contains_iff_declared
  calc table.size = table.index.names.length := (NameMap.length_names table.index).symm
    _ = table.symbols.length := by rw [sameNames.length_eq, List.length_map]
    _ = (table.files.map SchemaFile.typeCount).sum := by
      simp only [symbols, List.length_flatMap, SchemaFile.length_symbols]

def offeredAll (table : SymbolTable) (files : List SchemaFile) : SymbolTable :=
  files.foldl offered table

theorem Unambiguous.offeredAll {table : SymbolTable} (unambiguous : table.Unambiguous) {files : List SchemaFile}
    (distinct : ∀ file ∈ files, file.fullNames.Nodup) : (table.offeredAll files).Unambiguous := by
  induction files generalizing table with
  | nil => exact unambiguous
  | cons file rest ih =>
    refine ih (unambiguous.offered (distinct file (by simp))) ?_
    intro later member
    exact distinct later (List.mem_cons_of_mem _ member)

/-- The index of a table is faithful to its files whatever files were offered, refused ones among
them. Where no offered file repeats a full name, the table has one declaration for each. -/
theorem offeredAll_faithful (reservedPackage : String) (offers : List SchemaFile) :
    let table := (empty reservedPackage).offeredAll offers
    (∀ entry ∈ table.index.entries, ∃ file, table.files[entry.2.file]? = some file ∧
      entry.2.place < file.count entry.2.kind) ∧
    (∀ name, table.contains name → (table.get? name).isSome ∧ (table.declaringFile? name).isSome) ∧
    (∀ name symbol, table.get? name = some symbol →
      symbol.fullName = name ∧ ∃ file, table.declaringFile? name = some file ∧ symbol ∈ file.symbols) ∧
    (∀ name, table.contains name ↔ ∃ file ∈ table.files, ∃ symbol ∈ file.symbols, symbol.fullName = name) ∧
    ((∀ file ∈ offers, file.fullNames.Nodup) →
      (table.files.flatMap SchemaFile.fullNames).Nodup ∧
      (∀ file ∈ table.files, ∀ symbol ∈ file.symbols, table.get? symbol.fullName = some symbol) ∧
      table.size = (table.files.map SchemaFile.typeCount).sum) := by
  intro table
  refine ⟨?_, ?_, ?_, ?_, ?_⟩
  · intro entry member
    obtain ⟨file, symbol, located, -⟩ := table.indexed.located (table.indexed.ordered.get?_of_mem member)
    obtain ⟨listed, inside⟩ := Location.declarationIn?_eq_some_iff.mp located
    exact ⟨file, listed, SchemaFile.symbolAt?_lt inside⟩
  · intro name contained
    obtain ⟨file, symbol, declared⟩ := declaration?_of_contains contained
    simp [get?, declaringFile?, declared]
  · intro name symbol found
    obtain ⟨⟨file, _⟩, declared, rfl⟩ := Option.map_eq_some_iff.mp found
    obtain ⟨-, member, named⟩ := of_declaration? declared
    exact ⟨named, file, by simp [declaringFile?, declared], member⟩
  · intro name
    rw [contains_iff_declared]
    simp only [mem_symbols_iff]
    constructor
    · intro declared
      obtain ⟨symbol, ⟨file, listed, member⟩, named⟩ := declared
      exact ⟨file, listed, symbol, member, named⟩
    · intro declared
      obtain ⟨file, listed, symbol, member, named⟩ := declared
      exact ⟨symbol, ⟨file, listed, member⟩, named⟩
  · intro distinct
    have unambiguous : table.Unambiguous := (unambiguous_empty reservedPackage).offeredAll distinct
    refine ⟨?_, ?_, unambiguous.size_eq⟩
    · rw [← map_fullName_symbols]
      exact unambiguous
    · intro file listed symbol member
      exact unambiguous.get?_fullName (mem_symbols_iff.mpr ⟨file, listed, member⟩)

/-- The second file gives up a type of the first, the third is refused. -/
theorem offeredAll_faithful_overlap :
    let line : Message := ⟨"Line", "shop.Line", [], []⟩
    let order : Message := ⟨"Order", "shop.Order", [], []⟩
    let offers : List SchemaFile :=
      [⟨.named "lines", none, "shop", [], [], [line], []⟩,
       ⟨.named "orders", none, "shop", [], [], [line, order], []⟩,
       ⟨.named "states", none, "shop", [], [], [], [⟨"Order", "shop.Order", [], []⟩]⟩]
    let table := (empty "core").offeredAll offers
    (∀ file ∈ offers, file.fullNames.Nodup) ∧ table.files.length = 2 ∧
      table.size = (table.files.map SchemaFile.typeCount).sum :=
  ⟨by decide, by decide, ((offeredAll_faithful _ _).2.2.2.2 (by decide)).2.2⟩

end SymbolTable

end SchemaMarshal
