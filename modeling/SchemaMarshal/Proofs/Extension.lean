import SchemaMarshal.Proofs.Reports

/-! More sources at the end leave what was made of the earlier ones as it was.

A reference that was resolved is resolved the same way in the larger table, unless a new message
takes over the simple name of an enumeration. A reference that was unresolved may find its type.
-/

set_option autoImplicit false

namespace SchemaMarshal

theorem name_eq_of_fullName_eq {file : SchemaFile} (wellFormed : file.WellFormed) {symbol : Symbol}
    (declared : symbol ∈ file.symbols) {raw : String} (simple : '.' ∉ raw.toList)
    (named : symbol.fullName = withoutLeadingPoints raw) : symbol.name = raw := by
  rw [withoutLeadingPoints_eq_self fun head => simple (List.mem_of_mem_head? head)] at named
  have qualified := (wellFormed.qualified declared).1
  rw [named] at qualified
  rw [qualified, qualify_eq_self (qualified ▸ simple)]

theorem filterMap_sublist_of_kept {α β : Type} {first second : α → Option β}
    (kept : ∀ value result, first value = some result → second value = some result) (values : List α) :
    (values.filterMap first).Sublist (values.filterMap second) := by
  induction values with
  | nil => exact .slnil
  | cons value rest ih =>
    cases made : first value with
    | some result =>
      rw [List.filterMap_cons_some made, List.filterMap_cons_some (kept value result made)]
      exact ih.cons_cons result
    | none =>
      rw [List.filterMap_cons_none made]
      cases also : second value with
      | none =>
        rw [List.filterMap_cons_none also]
        exact ih
      | some result =>
        rw [List.filterMap_cons_some also]
        exact ih.cons result

/-- The larger table has further declarations at the end, and no message among them has the simple
name of an enumeration before them. -/
structure Extension (table larger : SymbolTable) (added : List (SchemaFile × Symbol)) : Prop where
  unambiguous : larger.Unambiguous
  wellFormed : ∀ file ∈ larger.files, file.WellFormed
  reservedPackage : larger.reservedPackage = table.reservedPackage
  declarations : larger.declarations = table.declarations ++ added
  unshadowed : ∀ declaration ∈ table.declarations, declaration.2.kind = .enumeration →
    ∀ other ∈ added, other.2.kind = .message → other.2.name ≠ declaration.2.name

namespace Extension

variable {table larger : SymbolTable} {added : List (SchemaFile × Symbol)} (extension : Extension table larger added)

include extension

theorem reference?_eq {usage : SchemaFile} {raw : String} {found : SchemaFile × Symbol}
    (resolved : reference? usage raw table.declarations = some found) :
    reference? usage raw larger.declarations = some found := by
  rw [extension.declarations]
  apply reference?_append resolved
  · rintro declaration member enumeration rfl other listed message
    exact extension.unshadowed declaration member enumeration other listed message
  · -- A simple name is a full name only in the empty package, where it would have matched as a simple one.
    rintro ⟨file, symbol⟩ member named different ⟨otherFile, other⟩ listed rfl
    have inLarger : (file, symbol) ∈ larger.declarations := by
      rw [extension.declarations]
      exact List.mem_append_left _ member
    have otherInLarger : (otherFile, other) ∈ larger.declarations := by
      rw [extension.declarations]
      exact List.mem_append_right _ listed
    obtain ⟨known, declared⟩ := SymbolTable.mem_declarations_iff.mp inLarger
    obtain ⟨otherKnown, otherDeclared⟩ := SymbolTable.mem_declarations_iff.mp otherInLarger
    have simple := ((extension.wellFormed otherFile otherKnown).qualified otherDeclared).2
    exact different (name_eq_of_fullName_eq (extension.wellFormed file known) declared simple named)

theorem resolve_eq_of_known {packageOption : String} {usage : SchemaFile} {raw : String}
    (known : resolve table packageOption usage raw ≠ .unresolved) :
    resolve larger packageOption usage raw = resolve table packageOption usage raw := by
  rw [resolve_eq] at known
  rw [resolve_eq, resolve_eq]
  cases scalar : Scalar.ofKeyword? raw with
  | some type => rfl
  | none =>
    cases resolved : reference? usage raw table.declarations with
    | none => simp [scalar, resolved] at known
    | some found => rw [extension.reference?_eq resolved]

theorem declarationOutcome_made {conventions : Conventions} {declaration : SchemaFile × Symbol}
    {marshaller : Marshaller} (made : declarationOutcome table conventions declaration = .made marshaller) :
    declarationOutcome larger conventions declaration = .made marshaller := by
  obtain ⟨file, symbol⟩ := declaration
  cases symbol with
  | enumeration enumeration => exact made
  | message message =>
    simp only [declarationOutcome, messageOutcome] at made ⊢
    split at made
    · rename_i result succeeded
      cases made
      rw [messageMarshaller_mono (fun raw known => extension.resolve_eq_of_known known) succeeded]
    · cases made

theorem userDeclarations_eq :
    larger.userDeclarations =
      table.userDeclarations ++ added.filter fun declaration => !larger.isReserved declaration.1 := by
  simp only [SymbolTable.userDeclarations, SymbolTable.isReserved, extension.declarations, extension.reservedPackage,
    List.filter_append]

theorem fullName_ne {declaration other : SchemaFile × Symbol} (member : declaration ∈ table.declarations)
    (listed : other ∈ added) : declaration.2.fullName ≠ other.2.fullName := by
  have distinct := extension.unambiguous.nodup_fullNames
  rw [extension.declarations, List.map_append] at distinct
  exact (List.nodup_append.mp distinct).2.2 _ (List.mem_map.mpr ⟨_, member, rfl⟩) _ (List.mem_map.mpr ⟨_, listed, rfl⟩)

/-- Marshallers of the earlier declarations come first and keep their order. New ones may stand
among them, for types whose references are resolved only now. -/
theorem marshallers_split (conventions : Conventions) :
    ∃ kept others, (generate larger conventions).marshallers = kept ++ others ∧
      (generate table conventions).marshallers.Sublist kept ∧
      (∀ marshaller ∈ kept, ∃ declaration ∈ table.declarations, declaration.2.fullName = marshaller.typeName) ∧
      ∀ marshaller ∈ others, ∃ declaration ∈ added, declaration.2.fullName = marshaller.typeName := by
  rw [marshallers_eq, marshallers_eq, extension.userDeclarations_eq, List.filterMap_append]
  refine ⟨_, _, rfl, ?_, ?_, ?_⟩
  · apply filterMap_sublist_of_kept
    intro declaration marshaller made
    rw [Outcome.marshaller?_eq_some_iff] at made ⊢
    exact extension.declarationOutcome_made made
  · intro marshaller member
    obtain ⟨declaration, user, made⟩ := List.mem_filterMap.mp member
    exact ⟨declaration, (List.mem_filter.mp user).1, fullName_of_outcome (Outcome.marshaller?_eq_some_iff.mp made)⟩
  · intro marshaller member
    obtain ⟨declaration, user, made⟩ := List.mem_filterMap.mp member
    exact ⟨declaration, (List.mem_filter.mp user).1, fullName_of_outcome (Outcome.marshaller?_eq_some_iff.mp made)⟩

theorem failed_before {conventions : Conventions} {failure : TypeFailure}
    (failed : failure ∈ (generate larger conventions).failures) {declaration : SchemaFile × Symbol}
    (member : declaration ∈ table.declarations) (named : declaration.2.fullName = failure.typeName) :
    failure.typeName ∈ (generate table conventions).failures.map (·.typeName) := by
  rw [failures_eq] at failed
  obtain ⟨failing, user, outcome⟩ := List.mem_filterMap.mp failed
  rw [Outcome.failure?_eq_some_iff] at outcome
  have failingName : failing.2.fullName = failure.typeName := fullName_of_outcome outcome
  -- It fails as a declaration of the smaller table, being the only one of its name.
  have early : failing ∈ table.userDeclarations := by
    rw [extension.userDeclarations_eq] at user
    rcases List.mem_append.mp user with here | there
    · exact here
    · exact absurd (named.trans failingName.symm) (extension.fullName_ne member (List.mem_filter.mp there).1)
  rw [← failingName, failures_eq]
  cases earlier : declarationOutcome table conventions failing with
  | made marshaller =>
    rw [extension.declarationOutcome_made earlier] at outcome
    cases outcome
  | failed first =>
    refine List.mem_map.mpr ⟨first, List.mem_filterMap.mpr ⟨failing, early, ?_⟩, (fullName_of_outcome earlier).symm⟩
    rw [earlier, Outcome.failure?]

end Extension

section

variable {options : GatherOptions} {tree : FileTree} {sources later : List Source} {table larger : SymbolTable}

theorem mem_fullNames_of_gather (gathered : SymbolTable.gather options tree sources = .ok table) {name : String} :
    name ∈ (Source.allSymbols tree options.resourceRoots (SymbolTable.allSources options sources)).map Symbol.fullName ↔
      ∃ declaration ∈ table.declarations, declaration.2.fullName = name := by
  simp only [List.mem_map, ← SymbolTable.mem_symbols_of_gather gathered, ← SymbolTable.map_snd_declarations,
    exists_exists_and_eq_and]

theorem extension_of_gather (texts : ∀ source ∈ sources ++ later, source.IsText)
    (gathered : SymbolTable.gather options tree sources = .ok table)
    (extended : SymbolTable.gather options tree (sources ++ later) = .ok larger)
    (unshadowed : ∀ symbol ∈ Source.allSymbols tree options.resourceRoots later, symbol.kind = .message →
      ∀ earlier ∈ Source.allSymbols tree options.resourceRoots (SymbolTable.allSources options sources),
        earlier.kind = .enumeration → symbol.name ≠ earlier.name) :
    ∃ added, Extension table larger added ∧
      ∀ declaration ∈ added, declaration.2 ∈ Source.allSymbols tree options.resourceRoots later := by
  have unambiguous := SymbolTable.unambiguous_of_gather texts extended
  have wellFormed : ∀ file ∈ larger.files, file.WellFormed :=
    fun file listed => SymbolTable.wellFormed_of_gather texts extended listed
  rw [SymbolTable.gather_append, gathered] at extended
  obtain ⟨reserved, files, same, origins⟩ := SymbolTable.gatherFrom_files extended
  have declared : ∀ declaration ∈ files.flatMap SchemaFile.declarations,
      declaration.2 ∈ Source.allSymbols tree options.resourceRoots later := by
    intro declaration member
    obtain ⟨file, listed, inside⟩ := List.mem_flatMap.mp member
    obtain ⟨symbol, inFile, rfl⟩ := List.mem_map.mp inside
    obtain ⟨source, given, loaded, keep, load, rfl⟩ := origins file listed
    rw [SchemaFile.symbols_restrict] at inFile
    exact Source.mem_allSymbols_iff.mpr ⟨source, given, loaded, load, (List.mem_filter.mp inFile).1⟩
  refine ⟨files.flatMap SchemaFile.declarations, ⟨unambiguous, wellFormed, reserved, ?_, ?_⟩, declared⟩
  · simp only [SymbolTable.declarations, same, List.flatMap_append]
  · intro declaration member enumeration other listed message
    have registered := SymbolTable.mem_symbols_iff_declaration.mpr ⟨declaration.1, member⟩
    exact unshadowed other.2 (declared other listed) message declaration.2
      ((SymbolTable.mem_symbols_of_gather gathered declaration.2).mp registered) enumeration

/-- Texts added at the end disturb nothing that was made, as long as none of their messages has the
simple name of an enumeration before them. The earlier marshallers stay as they were and in their
order, those of earlier types stand before those of new ones, and no earlier type begins to fail. -/
theorem generate_extended (texts : ∀ source ∈ sources ++ later, source.IsText)
    (gathered : SymbolTable.gather options tree sources = .ok table)
    (extended : SymbolTable.gather options tree (sources ++ later) = .ok larger)
    (unshadowed : ∀ symbol ∈ Source.allSymbols tree options.resourceRoots later, symbol.kind = .message →
      ∀ earlier ∈ Source.allSymbols tree options.resourceRoots (SymbolTable.allSources options sources),
        earlier.kind = .enumeration → symbol.name ≠ earlier.name)
    (conventions : Conventions) :
    let earlierNames :=
      (Source.allSymbols tree options.resourceRoots (SymbolTable.allSources options sources)).map Symbol.fullName
    let laterNames := (Source.allSymbols tree options.resourceRoots later).map Symbol.fullName
    (∃ kept others, (generate larger conventions).marshallers = kept ++ others ∧
      (generate table conventions).marshallers.Sublist kept ∧
      (∀ marshaller ∈ kept, marshaller.typeName ∈ earlierNames) ∧
      ∀ marshaller ∈ others, marshaller.typeName ∉ earlierNames ∧ marshaller.typeName ∈ laterNames) ∧
    ∀ failure ∈ (generate larger conventions).failures, failure.typeName ∈ earlierNames →
      failure.typeName ∈ (generate table conventions).failures.map (·.typeName) := by
  intro earlierNames laterNames
  obtain ⟨added, extension, declared⟩ := extension_of_gather texts gathered extended unshadowed
  obtain ⟨kept, others, split, sublist, fromEarlier, fromAdded⟩ := extension.marshallers_split conventions
  refine ⟨⟨kept, others, split, sublist, ?_, ?_⟩, ?_⟩
  · intro marshaller member
    exact (mem_fullNames_of_gather gathered).mpr (fromEarlier marshaller member)
  · intro marshaller member
    obtain ⟨declaration, new, named⟩ := fromAdded marshaller member
    refine ⟨?_, List.mem_map.mpr ⟨declaration.2, declared declaration new, named⟩⟩
    intro earlier
    obtain ⟨other, old, otherNamed⟩ := (mem_fullNames_of_gather gathered).mp earlier
    exact extension.fullName_ne old new (otherNamed.trans named.symm)
  · intro failure failed earlier
    obtain ⟨declaration, old, named⟩ := (mem_fullNames_of_gather gathered).mp earlier
    exact extension.failed_before failed old named

/-- The later text declares the type that a field of the first message needs, and another enumeration
of a simple name that is in use. -/
theorem generate_extended_completing :
    let options : GatherOptions := { reservedPackage := "core", wellKnownText := "package core;" }
    let tree : FileTree := ⟨.directory .empty, []⟩
    let source : Source := .text (.named "a")
      "package p; message M \x7b X x = 1; Y y = 2; \x7d message N \x7b \x7d enum X \x7b A = 0; \x7d"
    let added : Source := .text (.named "b") "package q; message Y \x7b \x7d enum X \x7b B = 1; \x7d"
    ∃ table larger, SymbolTable.gather options tree [source] = .ok table ∧
      SymbolTable.gather options tree ([source] ++ [added]) = .ok larger ∧
      (generate table {}).marshallers.map Marshaller.typeName = ["p.N", "p.X"] ∧
      (generate larger {}).marshallers.map Marshaller.typeName = ["p.M", "p.N", "p.X", "q.Y", "q.X"] ∧
      ∃ kept others, (generate larger {}).marshallers = kept ++ others ∧
        (generate table {}).marshallers.Sublist kept ∧ ∀ marshaller ∈ others, marshaller.typeName ∈ ["q.Y", "q.X"] := by
  intro options tree source added
  have small : (SymbolTable.gather options tree [source]).toOption.map
      (fun table => (generate table {}).marshallers.map Marshaller.typeName) = some ["p.N", "p.X"] := by
    decide +kernel
  have large : (SymbolTable.gather options tree ([source] ++ [added])).toOption.map
      (fun table => (generate table {}).marshallers.map Marshaller.typeName) =
        some ["p.M", "p.N", "p.X", "q.Y", "q.X"] := by decide +kernel
  have laterNames : (Source.allSymbols tree [] [added]).map Symbol.fullName = ["q.Y", "q.X"] := by decide +kernel
  have texts : ∀ other ∈ [source] ++ [added], other.IsText := by simp [source, added]
  have unshadowed : ∀ symbol ∈ Source.allSymbols tree [] [added], symbol.kind = .message →
      ∀ earlier ∈ Source.allSymbols tree [] (SymbolTable.allSources options [source]),
        earlier.kind = .enumeration → symbol.name ≠ earlier.name := by decide +kernel
  obtain ⟨table, gathered, tableNames⟩ := Option.map_eq_some_iff.mp small
  obtain ⟨larger, extended, largerNames⟩ := Option.map_eq_some_iff.mp large
  rw [toOption_eq_some_iff] at gathered extended
  obtain ⟨⟨kept, others, split, sublist, -, new⟩, -⟩ := generate_extended texts gathered extended unshadowed {}
  refine ⟨table, larger, gathered, extended, tableNames, largerNames, kept, others, split, sublist, ?_⟩
  intro marshaller member
  exact laterNames ▸ (new marshaller member).2

end

end SchemaMarshal
