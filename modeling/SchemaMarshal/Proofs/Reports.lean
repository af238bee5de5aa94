import SchemaMarshal.Proofs.Generation
import SchemaMarshal.Proofs.Resolution

/-! What a report accounts for: one outcome for each declaration of a user file, in their order.

A message fails at its first field whose type is unknown to the table, and at no other. Over sources
that are texts, the types of a report are those that the sources declare outside the reserved package.
-/

set_option autoImplicit false

namespace SchemaMarshal

def Outcome.typeName : Outcome → String
  | .made marshaller => marshaller.typeName
  | .failed failure => failure.typeName

namespace Report

def typeNames (report : Report) : List String :=
  report.marshallers.map Marshaller.typeName ++ report.failures.map (·.typeName)

theorem typeNames_ofOutcomes (outcomes : List Outcome) :
    (ofOutcomes outcomes).typeNames.Perm (outcomes.map Outcome.typeName) := by
  induction outcomes with
  | nil => exact .refl _
  | cons outcome rest ih =>
    cases outcome with
    | made marshaller => exact ih.cons marshaller.typeName
    | failed failure =>
      -- Failures are listed behind all marshallers, also behind those of later outcomes.
      exact List.perm_middle.trans (ih.cons failure.typeName)

/-- Marshallers and failures each keep the order of the outcomes. -/
theorem typeNames_ofOutcomes_sublist (outcomes : List Outcome) :
    ((ofOutcomes outcomes).marshallers.map Marshaller.typeName).Sublist (outcomes.map Outcome.typeName) ∧
      ((ofOutcomes outcomes).failures.map (·.typeName)).Sublist (outcomes.map Outcome.typeName) := by
  induction outcomes with
  | nil => exact ⟨.slnil, .slnil⟩
  | cons outcome rest ih =>
    obtain ⟨marshallers, failures⟩ := ih
    cases outcome with
    | made marshaller => exact ⟨marshallers.cons_cons marshaller.typeName, failures.cons marshaller.typeName⟩
    | failed failure => exact ⟨marshallers.cons failure.typeName, failures.cons_cons failure.typeName⟩

theorem find?_of_mem {report : Report} (distinct : report.typeNames.Nodup) {marshaller : Marshaller}
    (member : marshaller ∈ report.marshallers) : report.find? marshaller.typeName = some marshaller :=
  find?_key_of_mem (List.nodup_append.mp distinct).1 member

theorem strict_eq_ok_iff {report : Report} {marshallers : List Marshaller} :
    report.strict = .ok marshallers ↔ report.failures = [] ∧ marshallers = report.marshallers := by
  unfold strict
  cases report.failures with
  | nil => simp [eq_comm]
  | cons failure rest => simp

end Report

variable {table : SymbolTable} {conventions : Conventions}

def declarationOutcome (table : SymbolTable) (conventions : Conventions) : SchemaFile × Symbol → Outcome
  | (file, .message message) => messageOutcome table conventions file message
  | (file, .enumeration enumeration) => .made (.enumeration (enumMarshaller conventions file enumeration))

def SymbolTable.userDeclarations (table : SymbolTable) : List (SchemaFile × Symbol) :=
  table.declarations.filter fun declaration => !table.isReserved declaration.1

theorem mem_userDeclarations_iff {file : SchemaFile} {symbol : Symbol} :
    (file, symbol) ∈ table.userDeclarations ↔ file ∈ table.userFiles ∧ symbol ∈ file.symbols := by
  simp only [SymbolTable.userDeclarations, SymbolTable.userFiles, List.mem_filter, SymbolTable.mem_declarations_iff]
  exact and_right_comm

theorem userDeclarations_eq (table : SymbolTable) :
    table.userDeclarations = table.userFiles.flatMap SchemaFile.declarations := by
  unfold SymbolTable.userDeclarations SymbolTable.userFiles SymbolTable.declarations
  induction table.files with
  | nil => rfl
  | cons file rest ih =>
    rw [List.flatMap_cons, List.filter_append, ih, List.filter_cons]
    -- All declarations of one file stay or go together.
    cases reserved : table.isReserved file with
    | false => simp [SchemaFile.declarations, List.filter_map, Function.comp_def, reserved]
    | true => simp [SchemaFile.declarations, List.filter_map, Function.comp_def, reserved]

theorem outcomes_eq (table : SymbolTable) (conventions : Conventions) :
    outcomes table conventions = table.userDeclarations.map (declarationOutcome table conventions) := by
  rw [userDeclarations_eq, List.map_flatMap, outcomes]
  congr 1
  funext file
  simp only [fileOutcomes, SchemaFile.declarations, SchemaFile.symbols, List.map_append, List.map_map]
  rfl

theorem marshallers_eq (table : SymbolTable) (conventions : Conventions) :
    (generate table conventions).marshallers =
      table.userDeclarations.filterMap fun declaration =>
        (declarationOutcome table conventions declaration).marshaller? := by
  simp only [generate, Report.ofOutcomes, outcomes_eq, List.filterMap_map]
  rfl

theorem failures_eq (table : SymbolTable) (conventions : Conventions) :
    (generate table conventions).failures =
      table.userDeclarations.filterMap fun declaration =>
        (declarationOutcome table conventions declaration).failure? := by
  simp only [generate, Report.ofOutcomes, outcomes_eq, List.filterMap_map]
  rfl

theorem Outcome.marshaller?_eq_some_iff {outcome : Outcome} {marshaller : Marshaller} :
    outcome.marshaller? = some marshaller ↔ outcome = .made marshaller := by
  cases outcome <;> simp [marshaller?]

theorem Outcome.failure?_eq_some_iff {outcome : Outcome} {failure : TypeFailure} :
    outcome.failure? = some failure ↔ outcome = .failed failure := by
  cases outcome <;> simp [failure?]

theorem declarationOutcome_typeName (declaration : SchemaFile × Symbol) :
    (declarationOutcome table conventions declaration).typeName = declaration.2.fullName := by
  obtain ⟨file, symbol⟩ := declaration
  cases symbol with
  | enumeration enumeration => rfl
  | message message =>
    simp only [declarationOutcome, messageOutcome]
    split
    · rename_i marshaller made
      exact (messageMarshaller_eq_ok made).1
    · rfl

theorem fullName_of_outcome {declaration : SchemaFile × Symbol} {outcome : Outcome}
    (same : declarationOutcome table conventions declaration = outcome) :
    declaration.2.fullName = outcome.typeName := by
  rw [← same, declarationOutcome_typeName]

theorem typeNames_outcomes (table : SymbolTable) (conventions : Conventions) :
    (outcomes table conventions).map Outcome.typeName = table.userFiles.flatMap SchemaFile.fullNames := by
  rw [outcomes_eq, List.map_map, userDeclarations_eq, List.map_flatMap]
  congr 1
  funext file
  rw [SchemaFile.declarations, List.map_map]
  exact List.map_congr_left fun symbol _ => declarationOutcome_typeName (file, symbol)

theorem Resolution.access?_eq_none_iff {repeated : Bool} {resolution : Resolution} :
    resolution.access? repeated = none ↔ resolution = .unresolved := by
  cases resolution <;> simp [access?]

theorem classify_eq_error_iff {packageOption : String} {file : SchemaFile} {message : Message} {field : Field}
    {cause : UnresolvedType} :
    classify table packageOption file message field = .error cause ↔
      table.Unknown field.typeName ∧ cause = ⟨field.typeName, field.name, message.fullName⟩ := by
  have unknown : (resolve table packageOption file field.typeName).access? field.isRepeated = none ↔
      table.Unknown field.typeName := Resolution.access?_eq_none_iff.trans resolve_eq_unresolved_iff
  rw [← unknown, classify]
  split
  · rename_i access found
    simp [found]
  · rename_i none
    simp [none, eq_comm]

theorem classify_ok_iff {packageOption : String} {file : SchemaFile} {message : Message} {field : Field} :
    (∃ accessor, classify table packageOption file message field = .ok accessor) ↔ ¬ table.Unknown field.typeName := by
  constructor
  · rintro ⟨accessor, classified⟩ unknown
    rw [classify_eq_error_iff.mpr ⟨unknown, rfl⟩] at classified
    cases classified
  · intro known
    cases classified : classify table packageOption file message field with
    | ok accessor => exact ⟨accessor, rfl⟩
    | error cause => exact absurd (classify_eq_error_iff.mp classified).1 known

/-- A message fails at its first field of an unknown type. -/
theorem messageMarshaller_eq_error_iff {file : SchemaFile} {message : Message} {cause : UnresolvedType} :
    messageMarshaller table conventions file message = .error cause ↔
      ∃ field, message.fields.find? (fun field => table.Unknown field.typeName) = some field ∧
        cause = ⟨field.typeName, field.name, message.fullName⟩ := by
  -- Only the traversal of the fields can fail.
  have traversal : messageMarshaller table conventions file message = .error cause ↔
      message.fields.mapM (classify table conventions.packageOption file message) = .error cause := by
    unfold messageMarshaller
    cases message.fields.mapM (classify table conventions.packageOption file message) with
    | error other => simp [bind, Except.bind]
    | ok fields => exact ⟨nofun, nofun⟩
  rw [traversal, mapM_eq_error_iff]
  simp only [List.find?_eq_some_iff_append, classify_eq_error_iff, classify_ok_iff]
  constructor
  · rintro ⟨before, field, after, split, known, unknown, same⟩
    exact ⟨field, ⟨decide_eq_true unknown, before, after, split, by simpa using known⟩, same⟩
  · rintro ⟨field, ⟨unknown, before, after, split, known⟩, same⟩
    exact ⟨before, field, after, split, by simpa using known, of_decide_eq_true unknown, same⟩

theorem messageOutcome_eq_failed_iff {file : SchemaFile} {message : Message} {failure : TypeFailure} :
    messageOutcome table conventions file message = .failed failure ↔
      failure.typeName = message.fullName ∧
        messageMarshaller table conventions file message = .error failure.cause := by
  unfold messageOutcome
  split
  · rename_i marshaller made
    simp [made]
  · rename_i cause failed
    cases failure
    simp [failed, eq_comm]

theorem mem_failures_iff {failure : TypeFailure} :
    failure ∈ (generate table conventions).failures ↔
      ∃ file ∈ table.userFiles, ∃ message ∈ file.messages, failure.typeName = message.fullName ∧
        messageMarshaller table conventions file message = .error failure.cause := by
  simp only [failures_eq, List.mem_filterMap, Outcome.failure?_eq_some_iff]
  constructor
  · rintro ⟨⟨file, symbol⟩, member, failed⟩
    obtain ⟨user, listed⟩ := mem_userDeclarations_iff.mp member
    cases symbol with
    | enumeration enumeration => cases failed
    | message message =>
      exact ⟨file, user, message, SchemaFile.mem_symbols_message.mp listed, messageOutcome_eq_failed_iff.mp failed⟩
  · rintro ⟨file, user, message, listed, failed⟩
    exact ⟨(file, .message message), mem_userDeclarations_iff.mpr ⟨user, SchemaFile.mem_symbols_message.mpr listed⟩,
      messageOutcome_eq_failed_iff.mpr failed⟩

theorem mem_failedNames_iff {name : String} :
    name ∈ (generate table conventions).failures.map (·.typeName) ↔
      ∃ file ∈ table.userFiles, ∃ message ∈ file.messages, message.fullName = name ∧
        ∃ field ∈ message.fields, table.Unknown field.typeName := by
  simp only [List.mem_map, mem_failures_iff, messageMarshaller_eq_error_iff]
  constructor
  · rintro ⟨failure, ⟨file, user, message, listed, named, field, found, -⟩, rfl⟩
    have unknown : table.Unknown field.typeName := by simpa using List.find?_some found
    exact ⟨file, user, message, listed, named.symm, field, List.mem_of_find?_eq_some found, unknown⟩
  · rintro ⟨file, user, message, listed, rfl, field, declared, unknown⟩
    have some : (message.fields.find? fun field => table.Unknown field.typeName).isSome := by
      rw [List.find?_isSome]
      exact ⟨field, declared, decide_eq_true unknown⟩
    obtain ⟨first, found⟩ := Option.isSome_iff_exists.mp some
    exact ⟨⟨message.fullName, ⟨first.typeName, first.name, message.fullName⟩⟩,
      ⟨file, user, message, listed, rfl, first, found, rfl⟩, rfl⟩

section

variable {first second : SymbolTable} {file : SchemaFile}

theorem messageMarshaller_congr
    (same : ∀ raw, resolve first conventions.packageOption file raw = resolve second conventions.packageOption file raw)
    (message : Message) :
    messageMarshaller first conventions file message = messageMarshaller second conventions file message := by
  have classified : classify first conventions.packageOption file message =
      classify second conventions.packageOption file message := by
    funext field
    simp only [classify, same]
  simp only [messageMarshaller, classified]

theorem messageMarshaller_mono
    (kept : ∀ raw, resolve first conventions.packageOption file raw ≠ .unresolved →
      resolve second conventions.packageOption file raw = resolve first conventions.packageOption file raw)
    {message : Message} {marshaller : MessageMarshaller}
    (made : messageMarshaller first conventions file message = .ok marshaller) :
    messageMarshaller second conventions file message = .ok marshaller := by
  obtain ⟨fields, classified, rest⟩ := bind_eq_ok_iff.mp made
  refine bind_eq_ok_iff.mpr ⟨fields, ?_, rest⟩
  rw [mapM_eq_ok_iff] at classified ⊢
  refine classified.imp ?_
  intro field accessor done
  have known : resolve first conventions.packageOption file field.typeName ≠ .unresolved := by
    rw [Ne, resolve_eq_unresolved_iff]
    exact classify_ok_iff.mp ⟨accessor, done⟩
  rw [classify, kept field.typeName known]
  exact done

theorem declarationOutcome_congr
    (same : ∀ raw, resolve first conventions.packageOption file raw = resolve second conventions.packageOption file raw)
    (symbol : Symbol) :
    declarationOutcome first conventions (file, symbol) = declarationOutcome second conventions (file, symbol) := by
  cases symbol with
  | enumeration enumeration => rfl
  | message message => simp only [declarationOutcome, messageOutcome, messageMarshaller_congr same]

end

section

variable {options : GatherOptions} {tree : FileTree} {sources : List Source}

theorem mem_typeNames_iff {name : String} :
    name ∈ (generate table conventions).typeNames ↔
      ∃ file symbol, (file, symbol) ∈ table.userDeclarations ∧ symbol.fullName = name := by
  rw [generate, (Report.typeNames_ofOutcomes _).mem_iff, outcomes_eq, List.map_map, List.mem_map]
  simp only [Function.comp_apply, declarationOutcome_typeName, Prod.exists]

theorem nodup_typeNames (unambiguous : table.Unambiguous) : (generate table conventions).typeNames.Nodup := by
  rw [generate, (Report.typeNames_ofOutcomes _).nodup_iff, outcomes_eq, List.map_map]
  simp only [Function.comp_def, declarationOutcome_typeName]
  exact unambiguous.nodup_fullNames.sublist (List.filter_sublist.map _)

/-- Whichever file a type is registered with, its package is that of every source that declares it. -/
theorem package_eq_of_declares (texts : ∀ source ∈ sources, source.IsText)
    (gathered : SymbolTable.gather options tree sources = .ok table) {file loaded : SchemaFile} {symbol : Symbol}
    (listed : file ∈ table.files) (declared : symbol ∈ file.symbols) (wellFormed : loaded.WellFormed)
    (again : symbol ∈ loaded.symbols) : file.package = loaded.package := by
  have here := ((SymbolTable.wellFormed_of_gather texts gathered listed).qualified declared).1
  have there := (wellFormed.qualified again).1
  exact qualify_package_injective symbol.name (here.symm.trans there)

theorem typeName_of_declared (texts : ∀ source ∈ sources, source.IsText)
    (gathered : SymbolTable.gather options tree sources = .ok table) {source : Source} (member : source ∈ sources)
    {loaded : SchemaFile} (load : source.load tree options.resourceRoots = .ok loaded)
    (user : loaded.package ≠ options.reservedPackage) {name : String} (declared : name ∈ loaded.fullNames) :
    name ∈ (generate table conventions).typeNames := by
  obtain ⟨symbol, inLoaded, rfl⟩ := SchemaFile.mem_fullNames_iff.mp declared
  have registered : symbol ∈ table.symbols :=
    (SymbolTable.mem_symbols_of_gather gathered symbol).mpr
      (Source.mem_allSymbols_iff.mpr ⟨source, List.mem_cons_of_mem _ member, loaded, load, inLoaded⟩)
  -- The file may stem from another source, but its package is the same and so not the reserved one.
  obtain ⟨file, listed, inFile⟩ := SymbolTable.mem_symbols_iff.mp registered
  have same := package_eq_of_declares texts gathered listed inFile ((texts source member).wellFormed load) inLoaded
  refine mem_typeNames_iff.mpr ⟨file, symbol, mem_userDeclarations_iff.mpr ⟨?_, inFile⟩, rfl⟩
  simp [SymbolTable.userFiles, SymbolTable.isReserved, SymbolTable.reservedPackage_of_gather gathered, listed,
    same, user]

theorem declared_of_typeName (gathered : SymbolTable.gather options tree sources = .ok table)
    (reserved : ∀ file, SchemaFile.parse (.named WellKnown.name) options.wellKnownText = .ok file →
      file.package = options.reservedPackage)
    {name : String} (member : name ∈ (generate table conventions).typeNames) :
    ∃ source ∈ sources, ∃ loaded, source.load tree options.resourceRoots = .ok loaded ∧
      loaded.package ≠ options.reservedPackage ∧ name ∈ loaded.fullNames := by
  obtain ⟨file, symbol, declared, rfl⟩ := mem_typeNames_iff.mp member
  obtain ⟨user, inFile⟩ := mem_userDeclarations_iff.mp declared
  obtain ⟨listed, outside⟩ := List.mem_filter.mp user
  obtain ⟨source, known, loaded, keep, load, rfl⟩ := SymbolTable.origin_of_gather gathered listed
  have package : loaded.package ≠ options.reservedPackage := by
    simpa [SymbolTable.isReserved, SymbolTable.reservedPackage_of_gather gathered, SchemaFile.restrict] using outside
  have inLoaded : symbol ∈ loaded.symbols := by
    rw [SchemaFile.symbols_restrict] at inFile
    exact (List.mem_filter.mp inFile).1
  rcases List.mem_cons.mp known with rfl | given
  · have parsed := mapError_eq_ok_iff.mp (Source.load_eq_ok_iff.mp load).1
    exact absurd (reserved loaded parsed) package
  · exact ⟨source, given, loaded, load, package, SchemaFile.mem_fullNames_iff.mpr ⟨symbol, inLoaded, rfl⟩⟩

/-- A report neither loses nor repeats a type. Every name that a text declares outside the reserved
package has one marshaller or one failure, and no other name has any. Both lists keep the order of
registration. A type fails exactly if it is a message with a field of an unknown type, and then at
the first such field. -/
theorem generate_accounts (texts : ∀ source ∈ sources, source.IsText)
    (gathered : SymbolTable.gather options tree sources = .ok table) (conventions : Conventions) :
    let report := generate table conventions
    (∀ source ∈ sources, ∀ file, source.load tree options.resourceRoots = .ok file →
      file.package ≠ options.reservedPackage → ∀ name ∈ file.fullNames, report.typeNames.count name = 1) ∧
    ((∀ file, SchemaFile.parse (.named WellKnown.name) options.wellKnownText = .ok file →
        file.package = options.reservedPackage) →
      ∀ name ∈ report.typeNames, ∃ source ∈ sources, ∃ file,
        source.load tree options.resourceRoots = .ok file ∧ file.package ≠ options.reservedPackage ∧
          name ∈ file.fullNames) ∧
    table.symbols.Sublist
      (Source.allSymbols tree options.resourceRoots (SymbolTable.allSources options sources)) ∧
    (report.marshallers.map Marshaller.typeName).Sublist (table.userFiles.flatMap SchemaFile.fullNames) ∧
    (report.failures.map (·.typeName)).Sublist (table.userFiles.flatMap SchemaFile.fullNames) ∧
    (∀ name, name ∈ report.failures.map (·.typeName) ↔
      ∃ file ∈ table.userFiles, ∃ message ∈ file.messages, message.fullName = name ∧
        ∃ field ∈ message.fields, table.Unknown field.typeName) ∧
    (∀ failure ∈ report.failures, ∃ file ∈ table.userFiles, ∃ message ∈ file.messages, ∃ field,
      message.fullName = failure.typeName ∧
        message.fields.find? (fun field => table.Unknown field.typeName) = some field ∧
        failure.cause = ⟨field.typeName, field.name, message.fullName⟩) ∧
    (∀ marshallers, report.strict = .ok marshallers ↔ report.failures = [] ∧ marshallers = report.marshallers) ∧
    (∀ failure rest, report.failures = failure :: rest → report.strict = .error failure.cause) := by
  intro report
  have unambiguous := SymbolTable.unambiguous_of_gather texts gathered
  have ordered := Report.typeNames_ofOutcomes_sublist (outcomes table conventions)
  rw [typeNames_outcomes] at ordered
  refine ⟨?_, ?_, ?_, ordered.1, ordered.2, ?_, ?_, ?_, ?_⟩
  · intro source member file load user name declared
    have reported : name ∈ report.typeNames := typeName_of_declared texts gathered member load user declared
    exact List.count_eq_one_of_mem (nodup_typeNames unambiguous) reported
  · intro reserved name member
    exact declared_of_typeName gathered reserved member
  · exact SymbolTable.gatherFrom_symbols_sublist gathered
  · exact fun name => mem_failedNames_iff
  · intro failure member
    obtain ⟨file, user, message, listed, named, failed⟩ := mem_failures_iff.mp member
    obtain ⟨field, first, cause⟩ := messageMarshaller_eq_error_iff.mp failed
    exact ⟨file, user, message, listed, field, named.symm, first, cause⟩
  · exact fun marshallers => Report.strict_eq_ok_iff
  · intro failure rest failures
    simp only [Report.strict, failures]

/-- Two texts declare the enumeration, and a message of a third is in the reserved package. -/
theorem generate_accounts_overlap :
    let options : GatherOptions :=
      { reservedPackage := "core", wellKnownText := "package core; message K \x7b \x7d" }
    let tree : FileTree := ⟨.directory .empty, []⟩
    let first : Source := .text (.named "a") "package p; message M \x7b X x = 1; Y y = 2; \x7d enum X \x7b A = 0; \x7d"
    let second : Source := .text (.named "b")
      "package p; enum X \x7b A = 0; \x7d message N \x7b optional .core.K k = 1; \x7d"
    let hidden : Source := .text (.named "c") "package core; message H \x7b Z z = 1; \x7d"
    ∃ table, SymbolTable.gather options tree [first, second, hidden] = .ok table ∧
      (generate table {}).typeNames.count "p.X" = 1 ∧
      (∀ name ∈ (generate table {}).typeNames, ∃ source ∈ [first, second, hidden], ∃ file,
        source.load tree [] = .ok file ∧ file.package ≠ "core" ∧ name ∈ file.fullNames) ∧
      (generate table {}).failures = [⟨"p.M", ⟨"Y", "y", "p.M"⟩⟩] ∧
      (generate table {}).strict = .error ⟨"Y", "y", "p.M"⟩ := by
  intro options tree first second hidden
  have succeeds : (SymbolTable.gather options tree [first, second, hidden]).toOption.map
      (fun table => (generate table {}).failures) = some [⟨"p.M", ⟨"Y", "y", "p.M"⟩⟩] := by decide +kernel
  have loads : (second.load tree []).toOption.map (fun file => (file.package, file.fullNames)) =
      some ("p", ["p.N", "p.X"]) := by decide +kernel
  have wellKnown : (SchemaFile.parse (.named WellKnown.name) options.wellKnownText).toOption.map (·.package) =
      some "core" := by decide +kernel
  have texts : ∀ source ∈ [first, second, hidden], source.IsText := by simp [first, second, hidden]
  obtain ⟨table, gathered, failures⟩ := Option.map_eq_some_iff.mp succeeds
  obtain ⟨file, loaded, declared⟩ := Option.map_eq_some_iff.mp loads
  simp only [Prod.mk.injEq] at declared
  obtain ⟨once, others, -, -, -, -, -, -, strict⟩ :=
    generate_accounts texts (toOption_eq_some_iff.mp gathered) {}
  refine ⟨table, toOption_eq_some_iff.mp gathered, ?_, others ?_, failures, strict _ _ failures⟩
  · refine once second (by simp) file (toOption_eq_some_iff.mp loaded) ?_ "p.X" ?_
    · rw [declared.1]
      decide
    · rw [declared.2]
      decide
  · intro parsedFile parsed
    rw [toOption_eq_some_iff.mpr parsed] at wellKnown
    exact Option.some.inj wellKnown

end

end SchemaMarshal
