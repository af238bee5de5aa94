import SchemaMarshal.Proofs.Gathering
import SchemaMarshal.Proofs.ParserImage

/-! The declarations of a table: each type beside the file that lists it, in the order of registration.

Files without types leave no trace here. The index of a table is as good as a search through its
declarations, and gathering more sources only adds declarations at the end.
-/

set_option autoImplicit false

namespace SchemaMarshal

theorem find?_key_of_mem {α β : Type} [DecidableEq β] {key : α → β} {values : List α}
    (distinct : (values.map key).Nodup) {value : α} (member : value ∈ values) :
    values.find? (fun other => key other = key value) = some value := by
  cases found : values.find? fun other => key other = key value with
  | none =>
    have missed := List.find?_eq_none.mp found value member
    exact absurd (decide_eq_true rfl) missed
  | some other =>
    have same : key other = key value := by simpa using List.find?_some found
    rw [List.inj_on_of_nodup_map distinct (List.mem_of_find?_eq_some found) member same]

namespace SchemaFile

def declarations (file : SchemaFile) : List (SchemaFile × Symbol) := file.symbols.map fun symbol => (file, symbol)

theorem map_snd_declarations (file : SchemaFile) : file.declarations.map Prod.snd = file.symbols := by
  simp [declarations, Function.comp_def]

theorem mem_symbols_message {file : SchemaFile} {message : Message} :
    .message message ∈ file.symbols ↔ message ∈ file.messages := by
  simp [symbols]

theorem mem_symbols_enumeration {file : SchemaFile} {enumeration : Enumeration} :
    .enumeration enumeration ∈ file.symbols ↔ enumeration ∈ file.enumerations := by
  simp [symbols]

theorem restrict_congr {file : SchemaFile} {keep other : Symbol → Bool}
    (same : ∀ symbol ∈ file.symbols, keep symbol = other symbol) : file.restrict keep = file.restrict other := by
  have messages : file.messages.filter (fun message => keep (.message message)) =
      file.messages.filter fun message => other (.message message) :=
    List.filter_congr fun message listed => same _ (mem_symbols_message.mpr listed)
  have enumerations : file.enumerations.filter (fun enumeration => keep (.enumeration enumeration)) =
      file.enumerations.filter fun enumeration => other (.enumeration enumeration) :=
    List.filter_congr fun enumeration listed => same _ (mem_symbols_enumeration.mpr listed)
  simp only [restrict, messages, enumerations]

theorem restrict_eq_self {file : SchemaFile} {keep : Symbol → Bool}
    (all : ∀ symbol ∈ file.symbols, keep symbol = true) : file.restrict keep = file := by
  rw [restrict_congr all]
  simp [restrict]

theorem WellFormed.restrict {file : SchemaFile} (wellFormed : file.WellFormed) (keep : Symbol → Bool) :
    (file.restrict keep).WellFormed where
  package := wellFormed.package
  settings := wellFormed.settings
  messages := fun message listed => wellFormed.messages message (List.mem_filter.mp listed).1
  enumerations := fun enumeration listed => wellFormed.enumerations enumeration (List.mem_filter.mp listed).1

theorem WellFormed.word {file : SchemaFile} (wellFormed : file.WellFormed) {symbol : Symbol}
    (listed : symbol ∈ file.symbols) :
    symbol.fullName = qualify file.package symbol.name ∧ Name.isWord symbol.name.toList = true := by
  cases symbol with
  | message message =>
    have valid := wellFormed.messages message (mem_symbols_message.mp listed)
    exact ⟨valid.fullName, valid.name⟩
  | enumeration enumeration =>
    have valid := wellFormed.enumerations enumeration (mem_symbols_enumeration.mp listed)
    exact ⟨valid.fullName, valid.name⟩

theorem WellFormed.qualified {file : SchemaFile} (wellFormed : file.WellFormed) {symbol : Symbol}
    (listed : symbol ∈ file.symbols) :
    symbol.fullName = qualify file.package symbol.name ∧ '.' ∉ symbol.name.toList := by
  obtain ⟨fullName, word⟩ := wellFormed.word listed
  exact ⟨fullName, Name.not_mem_of_isWord word (by decide)⟩

end SchemaFile

theorem Source.IsText.wellFormed {tree : FileTree} {roots : List String} {source : Source} (isText : source.IsText)
    {file : SchemaFile} (loaded : source.load tree roots = .ok file) : file.WellFormed := by
  obtain ⟨identifier, content, rfl⟩ := isText
  exact (SchemaFile.wellFormed_of_parse (mapError_eq_ok_iff.mp (Source.load_eq_ok_iff.mp loaded).1)).2

namespace Source

variable {tree : FileTree} {roots : List String}

def symbols (tree : FileTree) (roots : List String) (source : Source) : List Symbol :=
  match source.load tree roots with
  | .ok loaded => loaded.symbols
  | .error _ => []

def allSymbols (tree : FileTree) (roots : List String) (sources : List Source) : List Symbol :=
  sources.flatMap (symbols tree roots)

theorem symbols_of_load {source : Source} {file : SchemaFile} (loaded : source.load tree roots = .ok file) :
    source.symbols tree roots = file.symbols := by
  simp only [symbols, loaded]

theorem mem_allSymbols_iff {sources : List Source} {symbol : Symbol} :
    symbol ∈ allSymbols tree roots sources ↔ ∃ source ∈ sources, source.Declares tree roots symbol := by
  have one : ∀ source : Source, symbol ∈ source.symbols tree roots ↔ source.Declares tree roots symbol := by
    intro source
    cases loaded : source.load tree roots with
    | ok file => rw [symbols_of_load loaded, declares_iff loaded]
    | error error => simp [symbols, Declares, loaded]
  simp only [allSymbols, List.mem_flatMap, one]

end Source

namespace SymbolTable

def declarations (table : SymbolTable) : List (SchemaFile × Symbol) := table.files.flatMap SchemaFile.declarations

theorem mem_declarations_iff {table : SymbolTable} {file : SchemaFile} {symbol : Symbol} :
    (file, symbol) ∈ table.declarations ↔ file ∈ table.files ∧ symbol ∈ file.symbols := by
  simp only [declarations, SchemaFile.declarations, List.mem_flatMap, List.mem_map, Prod.mk.injEq]
  constructor
  · rintro ⟨_, listed, _, declared, rfl, rfl⟩
    exact ⟨listed, declared⟩
  · rintro ⟨listed, declared⟩
    exact ⟨file, listed, symbol, declared, rfl, rfl⟩

theorem map_snd_declarations (table : SymbolTable) : table.declarations.map Prod.snd = table.symbols := by
  simp only [declarations, symbols, List.map_flatMap, SchemaFile.map_snd_declarations]

theorem mem_symbols_iff_declaration {table : SymbolTable} {symbol : Symbol} :
    symbol ∈ table.symbols ↔ ∃ file, (file, symbol) ∈ table.declarations := by
  simp only [mem_declarations_iff, mem_symbols_iff]

theorem declarations_append (table : SymbolTable) (file : SchemaFile) :
    (table.append file).declarations = table.declarations ++ file.declarations := by
  simp [declarations, append]

theorem Unambiguous.nodup_fullNames {table : SymbolTable} (unambiguous : table.Unambiguous) :
    (table.declarations.map fun declaration => declaration.2.fullName).Nodup := by
  rw [Unambiguous, ← map_snd_declarations, List.map_map] at unambiguous
  exact unambiguous

/-- The index finds what a search through all declarations finds. -/
theorem Unambiguous.declaration?_eq_find? {table : SymbolTable} (unambiguous : table.Unambiguous) (name : String) :
    table.declaration? name = table.declarations.find? fun declaration => declaration.2.fullName = name := by
  cases declared : table.declaration? name with
  | none =>
    have unknown : table.get? name = none := by simp [get?, declared]
    have absent := get?_eq_none_iff.mp unknown
    symm
    rw [List.find?_eq_none]
    intro declaration member named
    exact absent declaration.2 (mem_symbols_iff_declaration.mpr ⟨declaration.1, member⟩) (of_decide_eq_true named)
  | some found =>
    obtain ⟨file, symbol⟩ := found
    obtain ⟨listed, inside, rfl⟩ := of_declaration? declared
    exact (find?_key_of_mem unambiguous.nodup_fullNames (mem_declarations_iff.mpr ⟨listed, inside⟩)).symm

variable {options : GatherOptions} {tree : FileTree}

theorem files_tableFrom {table : SymbolTable} {file : SchemaFile} {registration : Registration}
    (registered : table.register file = .ok registration) :
    (registration.tableFrom table).reservedPackage = table.reservedPackage ∧
      ((registration.tableFrom table).files = table.files ∨
        ∃ keep, (registration.tableFrom table).files = table.files ++ [file.restrict keep]) := by
  rcases register_cases registered with ⟨rfl, -⟩ | ⟨-, rfl⟩
  · exact ⟨rfl, Or.inl rfl⟩
  · exact ⟨rfl, Or.inr ⟨_, rfl⟩⟩

/-- More sources add files at the end, each with some of the types of one source. -/
theorem gatherFrom_files {table after : SymbolTable} {sources : List Source}
    (gathered : sources.foldlM (gatherSource options tree) table = .ok after) :
    after.reservedPackage = table.reservedPackage ∧
      ∃ added, after.files = table.files ++ added ∧
        ∀ file ∈ added, ∃ source ∈ sources, ∃ loaded keep,
          source.load tree options.resourceRoots = .ok loaded ∧ file = loaded.restrict keep := by
  induction sources generalizing table with
  | nil =>
    cases gathered
    exact ⟨rfl, [], by simp, by simp⟩
  | cons source rest ih =>
    obtain ⟨middle, first, later⟩ := foldlM_cons_eq_ok_iff.mp gathered
    obtain ⟨loaded, registration, load, registered, rfl⟩ := gatherSource_eq_ok_iff.mp first
    obtain ⟨reserved, added, files, origins⟩ := ih later
    have addedOrigins : ∀ file ∈ added, ∃ other ∈ source :: rest, ∃ loaded keep,
        other.load tree options.resourceRoots = .ok loaded ∧ file = loaded.restrict keep := by
      intro file member
      obtain ⟨other, listed, origin⟩ := origins file member
      exact ⟨other, List.mem_cons_of_mem _ listed, origin⟩
    obtain ⟨sameReserved, same | ⟨keep, longer⟩⟩ := files_tableFrom registered
    · exact ⟨reserved.trans sameReserved, added, by rw [files, same], addedOrigins⟩
    · refine ⟨reserved.trans sameReserved, loaded.restrict keep :: added, by simp [files, longer], ?_⟩
      exact List.forall_mem_cons.mpr ⟨⟨source, by simp, loaded, keep, load, rfl⟩, addedOrigins⟩

/-- The types of a table stand in the order in which the sources declare them. -/
theorem gatherFrom_symbols_sublist {table after : SymbolTable} {sources : List Source}
    (gathered : sources.foldlM (gatherSource options tree) table = .ok after) :
    after.symbols.Sublist (table.symbols ++ Source.allSymbols tree options.resourceRoots sources) := by
  induction sources generalizing table with
  | nil =>
    cases gathered
    exact List.sublist_append_left _ _
  | cons source rest ih =>
    obtain ⟨middle, first, later⟩ := foldlM_cons_eq_ok_iff.mp gathered
    obtain ⟨loaded, registration, load, registered, rfl⟩ := gatherSource_eq_ok_iff.mp first
    refine (ih later).trans ?_
    simp only [Source.allSymbols, List.flatMap_cons, Source.symbols_of_load load, ← List.append_assoc]
    refine List.Sublist.append_right ?_ _
    obtain ⟨-, same | ⟨keep, longer⟩⟩ := files_tableFrom registered
    · rw [symbols, same]
      exact List.sublist_append_left _ _
    · rw [symbols, longer, List.flatMap_append, List.flatMap_singleton, SchemaFile.symbols_restrict]
      exact List.filter_sublist.append_left _

theorem gather_append (options : GatherOptions) (tree : FileTree) (sources later : List Source) :
    gather options tree (sources ++ later) =
      gather options tree sources >>= later.foldlM (gatherSource options tree) := by
  rw [gather, gather, ← List.foldlM_append]
  rfl

section

variable {sources : List Source} {table : SymbolTable}

theorem reservedPackage_of_gather (gathered : gather options tree sources = .ok table) :
    table.reservedPackage = options.reservedPackage :=
  (gatherFrom_files gathered).1

theorem origin_of_gather (gathered : gather options tree sources = .ok table) {file : SchemaFile}
    (listed : file ∈ table.files) :
    ∃ source ∈ allSources options sources, ∃ loaded keep,
      source.load tree options.resourceRoots = .ok loaded ∧ file = loaded.restrict keep := by
  obtain ⟨-, added, files, origins⟩ := gatherFrom_files gathered
  rw [files] at listed
  exact origins file listed

theorem wellFormed_of_gather (texts : ∀ source ∈ sources, source.IsText)
    (gathered : gather options tree sources = .ok table) {file : SchemaFile} (listed : file ∈ table.files) :
    file.WellFormed := by
  obtain ⟨source, member, loaded, keep, load, rfl⟩ := origin_of_gather gathered listed
  exact ((allSources_isText texts source member).wellFormed load).restrict keep

theorem mem_symbols_of_gather (gathered : gather options tree sources = .ok table) (symbol : Symbol) :
    symbol ∈ table.symbols ↔
      symbol ∈ Source.allSymbols tree options.resourceRoots (allSources options sources) := by
  rw [gatherFrom_symbols gathered, Source.mem_allSymbols_iff]
  exact or_iff_right List.not_mem_nil

end

end SymbolTable

end SchemaMarshal
