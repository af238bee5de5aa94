import SchemaMarshal.Proofs.Reports

/-! Where no simple name is declared twice, the order of the sources decides only the order of the report.

Nothing is dropped then: a table declares what its sources declare, file by file as they were read.
So the tables of two orders have the same declarations in another order, and resolve alike.
-/

set_option autoImplicit false

namespace SchemaMarshal

/-- The types of a source beside the file that was read, none if it cannot be loaded. -/
def Source.declarations (tree : FileTree) (roots : List String) (source : Source) : List (SchemaFile × Symbol) :=
  match source.load tree roots with
  | .ok loaded => loaded.declarations
  | .error _ => []

theorem Source.declarations_of_load {tree : FileTree} {roots : List String} {source : Source} {file : SchemaFile}
    (loaded : source.load tree roots = .ok file) : source.declarations tree roots = file.declarations := by
  simp only [declarations, loaded]

theorem name_eq_of_wellFormed {first second : SchemaFile} (firstValid : first.WellFormed)
    (secondValid : second.WellFormed) {symbol other : Symbol} (declared : symbol ∈ first.symbols)
    (otherDeclared : other ∈ second.symbols) (same : symbol.fullName = other.fullName) : symbol.name = other.name := by
  obtain ⟨qualified, simple⟩ := firstValid.qualified declared
  obtain ⟨otherQualified, otherSimple⟩ := secondValid.qualified otherDeclared
  exact name_eq_of_qualify_eq simple otherSimple (qualified.symm.trans (same.trans otherQualified))

namespace SymbolTable

variable {options : GatherOptions} {tree : FileTree}

/-- A file with none of the simple names of a table adds all its declarations. -/
theorem declarations_of_register {table : SymbolTable} {file : SchemaFile} {registration : Registration}
    (valid : ∀ listed ∈ table.files, listed.WellFormed) (fileValid : file.WellFormed)
    (new : ∀ symbol ∈ file.symbols, ∀ other ∈ table.symbols, symbol.name ≠ other.name)
    (registered : table.register file = .ok registration) :
    (registration.tableFrom table).declarations = table.declarations ++ file.declarations := by
  rcases register_cases registered with ⟨rfl, member⟩ | ⟨-, rfl⟩
  · -- A file that is there already has no type that could be new.
    have none : file.symbols = [] := by
      apply List.eq_nil_iff_forall_not_mem.mpr
      intro symbol declared
      exact new symbol declared symbol (mem_symbols_iff.mpr ⟨file, member, declared⟩) rfl
    simp [Registration.tableFrom, SchemaFile.declarations, none]
  · have fresh : ∀ symbol ∈ file.symbols, decide (table.standing symbol = .fresh) = true := by
      intro symbol declared
      rw [decide_eq_true_eq, standing_eq_fresh_iff, get?_eq_none_iff]
      intro other registered same
      obtain ⟨listed, inTable, inside⟩ := mem_symbols_iff.mp registered
      exact new symbol declared other registered
        (name_eq_of_wellFormed fileValid (valid listed inTable) declared inside same.symm)
    rw [Registration.tableFrom, SchemaFile.restrict_eq_self fresh, declarations_append]

theorem wellFormed_tableFrom {table : SymbolTable} {file : SchemaFile} {registration : Registration}
    (valid : ∀ listed ∈ table.files, listed.WellFormed) (fileValid : file.WellFormed)
    (registered : table.register file = .ok registration) :
    ∀ listed ∈ (registration.tableFrom table).files, listed.WellFormed := by
  obtain ⟨-, same | ⟨keep, longer⟩⟩ := files_tableFrom registered
  · rw [same]
    exact valid
  · rw [longer, List.forall_mem_append, List.forall_mem_singleton]
    exact ⟨valid, fileValid.restrict keep⟩

theorem declarations_of_gatherFrom {table after : SymbolTable}
    (valid : ∀ file ∈ table.files, file.WellFormed) {sources : List Source}
    (texts : ∀ source ∈ sources, source.IsText)
    (unique : ((table.symbols ++ Source.allSymbols tree options.resourceRoots sources).map Symbol.name).Nodup)
    (gathered : sources.foldlM (gatherSource options tree) table = .ok after) :
    after.declarations =
      table.declarations ++ sources.flatMap (Source.declarations tree options.resourceRoots) := by
  -- The names of the table stand in `unique` for those of the sources that were read before.
  induction sources generalizing table with
  | nil =>
    cases gathered
    simp
  | cons source rest ih =>
    obtain ⟨middle, first, later⟩ := foldlM_cons_eq_ok_iff.mp gathered
    obtain ⟨file, registration, loaded, registered, rfl⟩ := gatherSource_eq_ok_iff.mp first
    have isText := texts source (by simp)
    have fileValid := isText.wellFormed loaded
    rw [Source.allSymbols, List.flatMap_cons, Source.symbols_of_load loaded, ← List.append_assoc] at unique
    have new : ∀ symbol ∈ file.symbols, ∀ other ∈ table.symbols, symbol.name ≠ other.name := by
      rw [List.map_append, List.map_append] at unique
      have apart := (List.nodup_append.mp (List.nodup_append.mp unique).1).2.2
      intro symbol declared other listed same
      exact apart _ (List.mem_map_of_mem listed) _ (List.mem_map_of_mem declared) same.symm
    have declared := declarations_of_register valid fileValid new registered
    have symbols : (registration.tableFrom table).symbols = table.symbols ++ file.symbols := by
      rw [← map_snd_declarations, declared, List.map_append, map_snd_declarations, SchemaFile.map_snd_declarations]
    have later := ih (wellFormed_tableFrom valid fileValid registered)
      (fun other member => texts other (List.mem_cons_of_mem _ member)) (by rw [symbols]; exact unique) later
    rw [later, declared, List.flatMap_cons, Source.declarations_of_load loaded, List.append_assoc]

theorem declarations_of_gather {sources : List Source} {table : SymbolTable}
    (texts : ∀ source ∈ sources, source.IsText)
    (unique : ((Source.allSymbols tree options.resourceRoots (allSources options sources)).map Symbol.name).Nodup)
    (gathered : gather options tree sources = .ok table) :
    table.declarations = (allSources options sources).flatMap (Source.declarations tree options.resourceRoots) := by
  have valid : ∀ file ∈ (empty options.reservedPackage).files, file.WellFormed := List.forall_mem_nil _
  exact declarations_of_gatherFrom valid (allSources_isText texts) unique gathered

end SymbolTable

/-- Two tables of the same declarations in another order, with no simple name twice, give the same
reports in another order. -/
theorem reports_perm {first second : SymbolTable} (unambiguous : first.Unambiguous)
    (reserved : first.reservedPackage = second.reservedPackage)
    (perm : first.declarations.Perm second.declarations)
    (unique : (first.declarations.map fun declaration => declaration.2.name).Nodup) (conventions : Conventions) :
    (generate first conventions).marshallers.Perm (generate second conventions).marshallers ∧
      (generate first conventions).failures.Perm (generate second conventions).failures := by
  have user : first.userDeclarations.Perm second.userDeclarations := by
    simp only [SymbolTable.userDeclarations, SymbolTable.isReserved, reserved]
    exact perm.filter _
  have outcome : declarationOutcome first conventions = declarationOutcome second conventions := by
    funext declaration
    apply declarationOutcome_congr
    intro raw
    exact resolve_congr (reference?_perm perm unique unambiguous.nodup_fullNames)
  simp only [marshallers_eq, failures_eq, outcome]
  exact ⟨user.filterMap _, user.filterMap _⟩

/-- Where the texts and the well-known schema declare no simple name twice, any order of the texts can
be gathered and makes the same of every type: each type that a text declares outside the reserved
package has the same marshaller or the same failure in both reports. -/
theorem generate_reordered {options : GatherOptions} {tree : FileTree} {sources permuted : List Source}
    {table : SymbolTable} (texts : ∀ source ∈ sources, source.IsText)
    (gathered : SymbolTable.gather options tree sources = .ok table)
    (unique : ((Source.allSymbols tree options.resourceRoots (SymbolTable.allSources options sources)).map
      Symbol.name).Nodup)
    (perm : sources.Perm permuted) :
    ∃ reordered, SymbolTable.gather options tree permuted = .ok reordered ∧ ∀ conventions,
      (∀ source ∈ sources, ∀ file, source.load tree options.resourceRoots = .ok file →
        file.package ≠ options.reservedPackage → ∀ name ∈ file.fullNames,
          (∃ marshaller, (generate table conventions).find? name = some marshaller ∧
            (generate reordered conventions).find? name = some marshaller) ∨
          ∃ failure, failure.typeName = name ∧ failure ∈ (generate table conventions).failures ∧
            failure ∈ (generate reordered conventions).failures) ∧
      (generate table conventions).marshallers.Perm (generate reordered conventions).marshallers ∧
      (generate table conventions).failures.Perm (generate reordered conventions).failures := by
  -- The hypotheses hold of the other order too, so nothing is dropped from either table.
  obtain ⟨reordered, again⟩ := SymbolTable.gather_ok_of_perm texts perm ⟨table, gathered⟩
  have permutedTexts : ∀ source ∈ permuted, source.IsText :=
    fun source member => texts source (perm.mem_iff.mpr member)
  have allPerm : (SymbolTable.allSources options sources).Perm (SymbolTable.allSources options permuted) :=
    perm.cons _
  have permutedUnique : ((Source.allSymbols tree options.resourceRoots
      (SymbolTable.allSources options permuted)).map Symbol.name).Nodup :=
    ((allPerm.flatMap_right _).map _).nodup_iff.mp unique
  have declarations : table.declarations.Perm reordered.declarations := by
    rw [SymbolTable.declarations_of_gather texts unique gathered,
      SymbolTable.declarations_of_gather permutedTexts permutedUnique again]
    exact allPerm.flatMap_right _
  have names : (table.declarations.map fun declaration => declaration.2.name).Nodup := by
    have sublist := (SymbolTable.gatherFrom_symbols_sublist gathered).map Symbol.name
    rw [← SymbolTable.map_snd_declarations, List.map_map] at sublist
    exact unique.sublist sublist
  have unambiguous := SymbolTable.unambiguous_of_gather texts gathered
  have reserved : table.reservedPackage = reordered.reservedPackage :=
    (SymbolTable.reservedPackage_of_gather gathered).trans (SymbolTable.reservedPackage_of_gather again).symm
  refine ⟨reordered, again, ?_⟩
  intro conventions
  obtain ⟨marshallers, failures⟩ := reports_perm unambiguous reserved declarations names conventions
  refine ⟨?_, marshallers, failures⟩
  intro source member file loaded user name declared
  have reported : name ∈ (generate table conventions).typeNames :=
    typeName_of_declared texts gathered member loaded user declared
  rcases List.mem_append.mp reported with made | failed
  · obtain ⟨marshaller, listed, rfl⟩ := List.mem_map.mp made
    refine Or.inl ⟨marshaller, Report.find?_of_mem (nodup_typeNames unambiguous) listed, ?_⟩
    exact Report.find?_of_mem (nodup_typeNames (SymbolTable.unambiguous_of_gather permutedTexts again))
      (marshallers.mem_iff.mp listed)
  · obtain ⟨failure, listed, rfl⟩ := List.mem_map.mp failed
    exact Or.inr ⟨failure, rfl, listed, failures.mem_iff.mp listed⟩

/-- The first text uses types of the second by simple name and by full name, and one that is nowhere. -/
theorem generate_reordered_swap :
    let options : GatherOptions :=
      { reservedPackage := "core", wellKnownText := "package core; message K \x7b \x7d" }
    let tree : FileTree := ⟨.directory .empty, []⟩
    let first : Source := .text (.named "a")
      "package p; message M \x7b X x = 1; q.Y y = 2; K k = 3; \x7d message L \x7b Z z = 1; \x7d"
    let second : Source := .text (.named "b") "package q; message Y \x7b M m = 1; \x7d enum X \x7b A = 0; \x7d"
    ∃ table reordered, SymbolTable.gather options tree [first, second] = .ok table ∧
      SymbolTable.gather options tree [second, first] = .ok reordered ∧
      (generate table {}).marshallers.map Marshaller.typeName = ["p.M", "q.Y", "q.X"] ∧
      (generate table {}).failures.map (·.typeName) = ["p.L"] ∧
      (generate table {}).marshallers.Perm (generate reordered {}).marshallers ∧
      (generate table {}).failures.Perm (generate reordered {}).failures := by
  intro options tree first second
  have succeeds : (SymbolTable.gather options tree [first, second]).toOption.map (fun table =>
      ((generate table {}).marshallers.map Marshaller.typeName, (generate table {}).failures.map (·.typeName))) =
        some (["p.M", "q.Y", "q.X"], ["p.L"]) := by decide +kernel
  have unique : ((Source.allSymbols tree [] (SymbolTable.allSources options [first, second])).map
      Symbol.name).Nodup := by decide +kernel
  have texts : ∀ source ∈ [first, second], source.IsText := by simp [first, second]
  obtain ⟨table, gathered, reported⟩ := Option.map_eq_some_iff.mp succeeds
  rw [toOption_eq_some_iff] at gathered
  rw [Prod.mk.injEq] at reported
  obtain ⟨reordered, again, reports⟩ := generate_reordered texts gathered unique (List.Perm.swap second first [])
  exact ⟨table, reordered, gathered, again, reported.1, reported.2, (reports {}).2⟩

end SchemaMarshal
