import SchemaMarshal.Proofs.Reports
import SchemaMarshal.Proofs.WellKnown

/-! The class that a field refers to, beside the class that is made for the type it names.

A name that is no simple name goes the way of the index. So it meets the declaration in its own file,
and the class that this file gives it. A simple name meets whichever declaration is registered first.
In a single source that is its own declaration, unless a well-known kind has the name.
-/

set_option autoImplicit false

namespace SchemaMarshal

namespace SymbolTable

/-- A name that is neither a scalar nor a simple name stands for what the index has under it. -/
theorem Unambiguous.resolve_eq {table : SymbolTable} (unambiguous : table.Unambiguous) {raw : String}
    (notScalar : raw ∉ Scalar.all.map Scalar.keyword) (notSimple : ∀ symbol ∈ table.symbols, symbol.name ≠ raw)
    (packageOption : String) (usage : SchemaFile) :
    resolve table packageOption usage raw =
      ((table.declaration? (withoutLeadingPoints raw)).map fun declaration =>
        .resolved (targetClass packageOption declaration.1 declaration.2.settings declaration.2.name)).getD
          .unresolved := by
  have absent : ∀ declaration ∈ table.declarations, declaration.2.name ≠ raw :=
    fun declaration member => notSimple declaration.2 (mem_symbols_iff_declaration.mpr ⟨declaration.1, member⟩)
  obtain ⟨noMessage, noEnumeration⟩ := no_simple?_iff.mpr absent
  have reference : reference? usage raw table.declarations = table.declaration? (withoutLeadingPoints raw) := by
    rw [unambiguous.declaration?_eq_find?, reference?, noMessage, noEnumeration]
    rfl
  rw [SchemaMarshal.resolve_eq, ofKeyword?_eq_none_iff.mpr notScalar, reference]
  cases table.declaration? (withoutLeadingPoints raw) with
  | none => rfl
  | some declaration => rfl

/-- The scan through all files and the index agree on every name that is neither a scalar nor a simple
name, as long as no offered file repeats a full name. -/
theorem resolve_offeredAll (reservedPackage : String) {offers : List SchemaFile}
    (distinct : ∀ file ∈ offers, file.fullNames.Nodup) (packageOption : String) (usage : SchemaFile)
    (raw : String) (notScalar : raw ∉ Scalar.all.map Scalar.keyword)
    (notSimple : ∀ file ∈ ((empty reservedPackage).offeredAll offers).files, ∀ symbol ∈ file.symbols,
      symbol.name ≠ raw) :
    let table := (empty reservedPackage).offeredAll offers
    let name := withoutLeadingPoints raw
    (∀ symbol, table.get? name = some symbol → ∃ file, table.declaringFile? name = some file ∧
      resolve table packageOption usage raw =
        .resolved (targetClass packageOption file symbol.settings symbol.name)) ∧
    (table.get? name = none → resolve table packageOption usage raw = .unresolved) := by
  intro table name
  have unambiguous : table.Unambiguous := (unambiguous_empty reservedPackage).offeredAll distinct
  have noSimple : ∀ symbol ∈ table.symbols, symbol.name ≠ raw := by
    intro symbol registered
    obtain ⟨file, listed, declared⟩ := mem_symbols_iff.mp registered
    exact notSimple file listed symbol declared
  rw [unambiguous.resolve_eq notScalar noSimple]
  constructor
  · intro symbol found
    obtain ⟨⟨file, _⟩, declared, rfl⟩ := Option.map_eq_some_iff.mp found
    exact ⟨file, by simp [declaringFile?, declared], by simp [name, declared]⟩
  · intro unknown
    have undeclared : table.declaration? name = none := Option.map_eq_none_iff.mp unknown
    simp [name, undeclared]

/-- The second file gives up a type of the first and keeps one, whose class is in its package. -/
theorem resolve_offeredAll_overlap :
    let line : Message := ⟨"Line", "shop.Line", [], []⟩
    let order : Message := ⟨"Order", "shop.Order", [], []⟩
    let lines : SchemaFile := ⟨.named "lines", none, "shop", [], [], [line], []⟩
    let orders : SchemaFile := ⟨.named "orders", none, "shop", [], [⟨"java_package", "com.shop"⟩], [line, order], []⟩
    let table := (empty "core").offeredAll [lines, orders]
    table.declaringFile? "shop.Order" = some { orders with messages := [order] } ∧
      resolve table "java_package" lines ".shop.Order" = .resolved "com.shop.Order" ∧
      resolve table "java_package" orders "shop.State" = .unresolved := by
  intro line order lines orders table
  have distinct : ∀ file ∈ [lines, orders], file.fullNames.Nodup := by decide
  have declared : table.declaringFile? "shop.Order" = some { orders with messages := [order] } := by decide
  obtain ⟨found, -⟩ := resolve_offeredAll "core" distinct "java_package" lines ".shop.Order" (by decide) (by decide)
  obtain ⟨-, missed⟩ := resolve_offeredAll "core" distinct "java_package" orders "shop.State" (by decide) (by decide)
  refine ⟨declared, ?_, missed (by decide)⟩
  obtain ⟨file, declaring, resolved⟩ := found (.message order) (by decide)
  cases declaring.symm.trans declared
  exact resolved.trans (by decide)

end SymbolTable

def Field.referring (field : Field) (className : String) : Access :=
  if field.isRepeated then .collection className else .object className

theorem Field.referring_injective (field : Field) : Function.Injective field.referring := by
  intro first second same
  unfold referring at same
  split at same
  · exact Access.collection.inj same
  · exact Access.object.inj same

def SymbolTable.field? (table : SymbolTable) (typeName fieldName : String) : Option Field :=
  match table.get? typeName with
  | some (.message message) => message.fields.find? fun field => field.name = fieldName
  | _ => none

section

variable {table : SymbolTable} {conventions : Conventions}

theorem access_of_resolved {packageOption className : String} {file : SchemaFile} {message : Message} {field : Field}
    {accessor : Accessor} (resolved : resolve table packageOption file field.typeName = .resolved className)
    (classified : classify table packageOption file message field = .ok accessor) :
    accessor.access = field.referring className := by
  simp only [classify, resolved, Resolution.access?] at classified
  cases classified
  rfl

theorem targetClass_of_outcome {declaration : SchemaFile × Symbol} {marshaller : Marshaller}
    (made : declarationOutcome table conventions declaration = .made marshaller) :
    marshaller.targetClass =
      targetClass conventions.packageOption declaration.1 declaration.2.settings declaration.2.name := by
  obtain ⟨file, symbol⟩ := declaration
  cases symbol with
  | enumeration enumeration =>
    cases made
    rfl
  | message message =>
    simp only [declarationOutcome, messageOutcome] at made
    split at made
    · rename_i result succeeded
      cases made
      exact (messageMarshaller_eq_ok succeeded).2.1
    · cases made

theorem declaration_of_mem {marshaller : Marshaller}
    (member : marshaller ∈ (generate table conventions).marshallers) :
    ∃ file symbol, file ∈ table.userFiles ∧ (file, symbol) ∈ table.declarations ∧
      symbol.fullName = marshaller.typeName ∧
      marshaller.targetClass = targetClass conventions.packageOption file symbol.settings symbol.name := by
  rw [marshallers_eq] at member
  obtain ⟨⟨file, symbol⟩, user, made⟩ := List.mem_filterMap.mp member
  rw [Outcome.marshaller?_eq_some_iff] at made
  exact ⟨file, symbol, (mem_userDeclarations_iff.mp user).1, (List.mem_filter.mp user).1, fullName_of_outcome made,
    targetClass_of_outcome made⟩

theorem exists_left_of_forall₂ {α β : Type} {related : α → β → Prop} {lefts : List α} {rights : List β}
    (all : List.Forall₂ related lefts rights) {right : β} (member : right ∈ rights) :
    ∃ left ∈ lefts, related left right := by
  induction all with
  | nil => cases member
  | @cons left other lefts rights first rest ih =>
    rcases List.mem_cons.mp member with rfl | later
    · exact ⟨left, by simp, first⟩
    · obtain ⟨found, listed, same⟩ := ih later
      exact ⟨found, List.mem_cons_of_mem _ listed, same⟩

theorem field_of_made {options : GatherOptions} {tree : FileTree} {sources : List Source}
    (texts : ∀ source ∈ sources, source.IsText) (gathered : SymbolTable.gather options tree sources = .ok table)
    {marshaller : MessageMarshaller} (made : .message marshaller ∈ (generate table conventions).marshallers)
    {accessor : Accessor} (listed : accessor ∈ marshaller.fields) :
    ∃ file ∈ table.userFiles, ∃ message field,
      table.field? marshaller.typeName accessor.fieldName = some field ∧
        classify table conventions.packageOption file message field = .ok accessor := by
  obtain ⟨file, user, message, declared, succeeded⟩ := messageMarshaller_of_mem made
  have unambiguous := SymbolTable.unambiguous_of_gather texts gathered
  have known : file ∈ table.files := (List.mem_filter.mp user).1
  obtain ⟨typeName, -, classified⟩ := messageMarshaller_eq_ok succeeded
  obtain ⟨field, declaredField, made⟩ := exists_left_of_forall₂ classified listed
  have valid := SymbolTable.message_valid_of_gather gathered known declared
  have registered : table.get? message.fullName = some (.message message) :=
    unambiguous.get?_fullName
      (SymbolTable.mem_symbols_iff.mpr ⟨file, known, SchemaFile.mem_symbols_message.mpr declared⟩)
  have found : message.fields.find? (fun other => other.name = field.name) = some field :=
    find?_key_of_mem (message.duplicate?_eq_none_iff.mp valid).1 declaredField
  refine ⟨file, user, message, field, ?_, made⟩
  simp only [SymbolTable.field?, typeName, registered, classify_fieldName made, found]

theorem not_keyword_of_point {raw : String} (pointed : '.' ∈ raw.toList) : raw ∉ Scalar.all.map Scalar.keyword := by
  have plain : ∀ keyword ∈ Scalar.all.map Scalar.keyword, '.' ∉ keyword.toList := by decide
  intro keyword
  exact plain raw keyword pointed

/-- A name with a point never misses its type: where a marshaller is made for the type of that full
name, the field refers to the class of that marshaller. -/
theorem generate_refers_by_fullName {options : GatherOptions} {tree : FileTree} {sources : List Source}
    (texts : ∀ source ∈ sources, source.IsText) (gathered : SymbolTable.gather options tree sources = .ok table)
    {marshaller : MessageMarshaller} (made : .message marshaller ∈ (generate table conventions).marshallers)
    {accessor : Accessor} (listed : accessor ∈ marshaller.fields) :
    ∃ field, table.field? marshaller.typeName accessor.fieldName = some field ∧
      ('.' ∈ field.typeName.toList → ∀ target ∈ (generate table conventions).marshallers,
        target.typeName = withoutLeadingPoints field.typeName →
          accessor.access = field.referring target.targetClass) := by
  obtain ⟨file, -, message, field, declared, classified⟩ := field_of_made texts gathered made listed
  refine ⟨field, declared, ?_⟩
  intro pointed target member named
  have unambiguous := SymbolTable.unambiguous_of_gather texts gathered
  obtain ⟨declaring, symbol, -, registered, fullName, targetClass⟩ := declaration_of_mem member
  -- No simple name has a point, so only the search by full names is left.
  have notSimple : ∀ symbol ∈ table.symbols, symbol.name ≠ field.typeName := by
    rintro other known same
    obtain ⟨otherFile, otherListed, otherDeclared⟩ := SymbolTable.mem_symbols_iff.mp known
    have simple := ((SymbolTable.wellFormed_of_gather texts gathered otherListed).qualified otherDeclared).2
    exact simple (same ▸ pointed)
  have found : table.declaration? (withoutLeadingPoints field.typeName) = some (declaring, symbol) := by
    rw [unambiguous.declaration?_eq_find?, ← named, ← fullName]
    exact find?_key_of_mem unambiguous.nodup_fullNames registered
  have resolved := unambiguous.resolve_eq (not_keyword_of_point pointed) notSimple conventions.packageOption file
  rw [found] at resolved
  rw [targetClass]
  exact access_of_resolved resolved classified

/-- The file of the field has an override, the file of the type has none. -/
theorem generate_refers_by_fullName_elsewhere :
    let options : GatherOptions := { reservedPackage := "core", wellKnownText := "package core;" }
    let tree : FileTree := ⟨.directory .empty, []⟩
    let first : Source := .text (.named "a")
      "package p; option java_package = \"x\"; message M \x7b repeated .q.E e = 1; \x7d"
    let second : Source := .text (.named "b") "package q; enum E \x7b A = 0; \x7d"
    let accessor : Accessor := ⟨"e", "getE", "setE", .collection "q.E"⟩
    let marshaller : MessageMarshaller := ⟨"MMessageMarshaller", "p", "x.M", "p.M", [accessor]⟩
    let target : Marshaller := .enumeration ⟨"EEnumMarshaller", "q", "q.E", "q.E", [⟨"A", 0⟩]⟩
    ∃ table field, SymbolTable.gather options tree [first, second] = .ok table ∧
      (generate table {}).marshallers = [.message marshaller, target] ∧
      table.field? "p.M" "e" = some field ∧ field.typeName = ".q.E" ∧
      accessor.access = field.referring target.targetClass := by
  intro options tree first second accessor marshaller target
  have succeeds : (SymbolTable.gather options tree [first, second]).toOption.map
      (fun table => ((generate table {}).marshallers, (table.field? "p.M" "e").map (·.typeName))) =
        some ([.message marshaller, target], some ".q.E") := by decide +kernel
  have texts : ∀ source ∈ [first, second], source.IsText := by simp [first, second]
  obtain ⟨table, gathered, reported⟩ := Option.map_eq_some_iff.mp succeeds
  rw [toOption_eq_some_iff] at gathered
  rw [Prod.mk.injEq] at reported
  have made : .message marshaller ∈ (generate table {}).marshallers := by simp [reported.1]
  have targetMade : target ∈ (generate table {}).marshallers := by simp [reported.1]
  obtain ⟨field, declared, refers⟩ :=
    generate_refers_by_fullName texts gathered made (List.mem_singleton.mpr (rfl : accessor = accessor))
  have typeName : field.typeName = ".q.E" := by
    have known := reported.2
    rw [declared] at known
    exact Option.some.inj known
  refine ⟨table, field, gathered, reported.1, declared, typeName, refers ?_ target targetMade ?_⟩
  · rw [typeName]
    decide
  · rw [typeName]
    decide

theorem resolve_of_reference {packageOption raw : String} {usage file : SchemaFile} {symbol : Symbol}
    (notScalar : raw ∉ Scalar.all.map Scalar.keyword)
    (reference : reference? usage raw table.declarations = some (file, symbol)) :
    resolve table packageOption usage raw = .resolved (targetClass packageOption file symbol.settings symbol.name) := by
  simp only [resolve_eq, ofKeyword?_eq_none_iff.mpr notScalar, reference]

/-- A simple name stands for a type that has it, whichever that is. -/
theorem reference?_of_simple (usage : SchemaFile) {raw : String} {declarations : List (SchemaFile × Symbol)}
    {declaration : SchemaFile × Symbol} (member : declaration ∈ declarations) (named : declaration.2.name = raw) :
    ∃ found ∈ declarations, found.2.name = raw ∧ reference? usage raw declarations = some (usage, found.2) := by
  unfold reference?
  cases message : simple? .message raw declarations with
  | some found =>
    obtain ⟨listed, -, same⟩ := of_simple?_eq_some message
    exact ⟨found, listed, same, rfl⟩
  | none =>
    cases enumeration : simple? .enumeration raw declarations with
    | some found =>
      obtain ⟨listed, -, same⟩ := of_simple?_eq_some enumeration
      exact ⟨found, listed, same, rfl⟩
    | none => exact absurd named (no_simple?_iff.mp ⟨message, enumeration⟩ declaration member)

/-- A message that comes first keeps its simple name from all that follows. -/
theorem reference?_of_message (usage : SchemaFile) {raw : String} {first : List (SchemaFile × Symbol)}
    (later : List (SchemaFile × Symbol)) {declaration : SchemaFile × Symbol} (member : declaration ∈ first)
    (message : declaration.2.kind = .message) (named : declaration.2.name = raw) :
    ∃ found ∈ first, found.2.name = raw ∧ reference? usage raw (first ++ later) = some (usage, found.2) := by
  cases simple : simple? .message raw first with
  | none => exact absurd named (simple?_eq_none_iff.mp simple declaration member message)
  | some found =>
    obtain ⟨listed, -, same⟩ := of_simple?_eq_some simple
    have split : simple? .message raw (first ++ later) = (simple? .message raw first).or (simple? .message raw later) :=
      List.find?_append
    refine ⟨found, listed, same, ?_⟩
    simp [reference?, split, simple]

section

variable {tree : FileTree} {source : Source} {file : SchemaFile}

theorem userFile_of_single (gathered : SymbolTable.gather {} tree [source] = .ok table)
    (loaded : source.load tree [] = .ok file) {user : SchemaFile} (listed : user ∈ table.userFiles) :
    ∃ keep, user = file.restrict keep := by
  obtain ⟨known, outside⟩ := List.mem_filter.mp listed
  obtain ⟨origin, member, other, keep, load, rfl⟩ := SymbolTable.origin_of_gather gathered known
  rcases List.mem_pair.mp member with rfl | rfl
  · -- The well-known kinds are in the reserved package.
    have same := (WellKnown.load_text tree []).symm.trans load
    cases same
    simp [SymbolTable.isReserved, SymbolTable.reservedPackage_of_gather gathered, SchemaFile.restrict,
      WellKnown.file] at outside
  · cases loaded.symm.trans load
    exact ⟨keep, rfl⟩

theorem mem_symbols_of_single (gathered : SymbolTable.gather {} tree [source] = .ok table)
    (loaded : source.load tree [] = .ok file) {symbol : Symbol} :
    symbol ∈ table.symbols ↔ symbol ∈ WellKnown.file.symbols ∨ symbol ∈ file.symbols := by
  rw [SymbolTable.mem_symbols_of_gather gathered]
  simp only [SymbolTable.allSources, Source.allSymbols, List.flatMap_cons, List.flatMap_nil, List.append_nil,
    List.mem_append]
  rw [Source.symbols_of_load loaded, Source.symbols_of_load (WellKnown.load_text tree [])]

/-- The simple name of a type of a single source stands for that type, or for the well-known kind of
the same name, which has no settings. -/
theorem reference?_of_single (gathered : SymbolTable.gather {} tree [source] = .ok table)
    (loaded : source.load tree [] = .ok file) {symbol : Symbol} (declared : symbol ∈ file.symbols)
    (usage : SchemaFile) :
    ∃ found, reference? usage symbol.name table.declarations = some (usage, found) ∧ found.name = symbol.name ∧
      found.settings = if symbol.name ∈ WellKnown.names then [] else symbol.settings := by
  by_cases wellKnown : symbol.name ∈ WellKnown.names
  · -- The well-known kinds are messages and stand before everything else.
    obtain ⟨kind, listed, named⟩ := List.mem_map.mp wellKnown
    have message : kind.kind = .message := by
      have all : ∀ kind ∈ WellKnown.file.symbols, kind.kind = .message := by decide
      exact all kind listed
    have start := SymbolTable.gather_default tree [source]
    rw [gathered] at start
    obtain ⟨-, added, files, -⟩ := SymbolTable.gatherFrom_files start.symm
    have split : table.declarations = WellKnown.file.declarations ++ added.flatMap SchemaFile.declarations := by
      rw [SymbolTable.declarations, files]
      rfl
    have member : (WellKnown.file, kind) ∈ WellKnown.file.declarations := List.mem_map.mpr ⟨kind, listed, rfl⟩
    obtain ⟨found, first, sameName, reference⟩ :=
      reference?_of_message usage (added.flatMap SchemaFile.declarations) member message named
    obtain ⟨other, otherListed, rfl⟩ := List.mem_map.mp first
    refine ⟨other, by rw [split, reference], sameName, ?_⟩
    rw [if_pos wellKnown, WellKnown.settings_of_mem otherListed]
  · have registered : symbol ∈ table.symbols := (mem_symbols_of_single gathered loaded).mpr (Or.inr declared)
    obtain ⟨place, member⟩ := SymbolTable.mem_symbols_iff_declaration.mp registered
    obtain ⟨found, foundMember, sameName, reference⟩ := reference?_of_simple usage member rfl
    have foundRegistered := SymbolTable.mem_symbols_iff_declaration.mpr ⟨found.1, foundMember⟩
    have foundDeclared : found.2 ∈ file.symbols := by
      rcases (mem_symbols_of_single gathered loaded).mp foundRegistered with kind | own
      · exact absurd (List.mem_map.mpr ⟨found.2, kind, sameName⟩) wellKnown
      · exact own
    have same : found.2 = symbol :=
      List.inj_on_of_nodup_map (Source.names_nodup_of_load loaded) foundDeclared declared sameName
    exact ⟨found.2, reference, sameName, by rw [if_neg wellKnown, same]⟩

/-- A source of its own refers to its own classes. A field whose type is the simple name of a type of
the same source has the class of that type's marshaller, except that a type with the name of a well-known
kind is referred to without its own settings: then the two classes are the same exactly if these
settings do not change the package. -/
theorem generate_refers_within {identifier : Identifier} {content : String}
    (gathered : SymbolTable.gather {} tree [.text identifier content] = .ok table)
    {marshaller : MessageMarshaller} (made : .message marshaller ∈ (generate table conventions).marshallers)
    {accessor : Accessor} (listed : accessor ∈ marshaller.fields) :
    ∃ file field, (Source.text identifier content).load tree [] = .ok file ∧
      table.field? marshaller.typeName accessor.fieldName = some field ∧
      (field.typeName ∉ Scalar.all.map Scalar.keyword → ∀ symbol ∈ file.symbols, symbol.name = field.typeName →
        ∀ target ∈ (generate table conventions).marshallers, target.typeName = symbol.fullName →
          (accessor.access = field.referring target.targetClass ↔
            symbol.name ∉ WellKnown.names ∨
              packageOf conventions.packageOption file symbol.settings = packageOf conventions.packageOption file []) ∧
          (symbol.name ∈ WellKnown.names → accessor.access =
            field.referring (targetClass conventions.packageOption file [] symbol.name))) := by
  have texts : ∀ source ∈ [Source.text identifier content], source.IsText := by simp
  obtain ⟨file, loaded⟩ := SymbolTable.gatherFrom_loads gathered (.text identifier content) (by simp [SymbolTable.allSources])
  obtain ⟨user, userListed, message, field, declaredField, classified⟩ := field_of_made texts gathered made listed
  refine ⟨file, field, loaded, declaredField, ?_⟩
  intro notScalar symbol declared named target member targetName
  have unambiguous := SymbolTable.unambiguous_of_gather texts gathered
  obtain ⟨keep, rfl⟩ := userFile_of_single gathered loaded userListed
  obtain ⟨found, reference, foundName, foundSettings⟩ := reference?_of_single gathered loaded declared (file.restrict keep)
  -- The class that the field refers to.
  have resolved : resolve table conventions.packageOption (file.restrict keep) field.typeName =
      .resolved (targetClass conventions.packageOption file found.settings symbol.name) := by
    rw [← named] at notScalar ⊢
    rw [resolve_of_reference notScalar reference, foundName]
    rfl
  have access := access_of_resolved resolved classified
  -- The class of the marshaller, which is made for the same type.
  obtain ⟨declaring, other, declaringUser, registered, fullName, targetClass_eq⟩ := declaration_of_mem member
  obtain ⟨otherKeep, rfl⟩ := userFile_of_single gathered loaded declaringUser
  have same : other = symbol := by
    apply unambiguous.eq_of_fullName (SymbolTable.mem_symbols_iff_declaration.mpr ⟨_, registered⟩)
    · exact (mem_symbols_of_single gathered loaded).mpr (Or.inr declared)
    · exact fullName.trans targetName
  subst same
  have classes : accessor.access = field.referring target.targetClass ↔
      packageOf conventions.packageOption file found.settings =
        packageOf conventions.packageOption file other.settings := by
    rw [access, targetClass_eq, field.referring_injective.eq_iff]
    exact (qualify_package_injective other.name).eq_iff
  rw [foundSettings] at access classes
  by_cases wellKnown : other.name ∈ WellKnown.names
  · rw [if_pos wellKnown] at access classes
    refine ⟨?_, fun _ => access⟩
    rw [classes]
    constructor
    · exact fun unchanged => Or.inr unchanged.symm
    · rintro (elsewhere | unchanged)
      · exact absurd wellKnown elsewhere
      · exact unchanged.symm
  · rw [if_neg wellKnown] at classes
    exact ⟨⟨fun _ => Or.inl wellKnown, fun _ => classes.mpr rfl⟩, fun known => absurd known wellKnown⟩

/-- The enumeration has the name of a well-known kind, and no setting of its own. -/
theorem generate_refers_within_enumeration :
    let tree : FileTree := ⟨.directory .empty, []⟩
    let source : Source := .text (.named "a")
      "package p; message M \x7b repeated LongValue n = 1; \x7d enum LongValue \x7b A = 0; \x7d"
    let accessor : Accessor := ⟨"n", "getN", "setN", .collection "p.LongValue"⟩
    let marshaller : MessageMarshaller := ⟨"MMessageMarshaller", "p", "p.M", "p.M", [accessor]⟩
    let target : Marshaller := .enumeration ⟨"LongValueEnumMarshaller", "p", "p.LongValue", "p.LongValue", [⟨"A", 0⟩]⟩
    ∃ table field, SymbolTable.gather {} tree [source] = .ok table ∧
      (generate table {}).marshallers = [.message marshaller, target] ∧
      table.field? "p.M" "n" = some field ∧ field.typeName = "LongValue" ∧
      accessor.access = field.referring target.targetClass := by
  intro tree source accessor marshaller target
  let field : Field := ⟨"n", "LongValue", 1, .repeated⟩
  let own : Enumeration := ⟨"LongValue", "p.LongValue", [⟨"A", 0⟩], []⟩
  let file : SchemaFile := ⟨.named "a", none, "p", [], [], [⟨"M", "p.M", [field], []⟩], [own]⟩
  have loaded : source.load tree [] = .ok file := Source.load_ofList (by decide +kernel) (by decide +kernel)
  let table : SymbolTable := SymbolTable.wellKnown.append file
  have registered : SymbolTable.wellKnown.register file = .ok (.added table) := by decide +kernel
  have gathered : SymbolTable.gather {} tree [source] = .ok table := SymbolTable.gather_single loaded registered
  have reported : (generate table {}).marshallers = [.message marshaller, target] := by decide +kernel
  have known : table.field? "p.M" "n" = some field := by decide +kernel
  have made : .message marshaller ∈ (generate table {}).marshallers := by simp [reported]
  have targetMade : target ∈ (generate table {}).marshallers := by simp [reported]
  obtain ⟨again, declared, reloaded, found, refers⟩ :=
    generate_refers_within gathered made (List.mem_singleton.mpr (rfl : accessor = accessor))
  cases loaded.symm.trans reloaded
  cases known.symm.trans found
  have own := refers (by decide) (.enumeration own) (by decide) rfl target targetMade rfl
  exact ⟨table, field, gathered, reported, known, rfl, own.1.mpr (Or.inr rfl)⟩

/-- The source and a well-known kind share a simple name. The field meets the kind, and so misses the
package that the source gives to its own type. -/
theorem reference_misses_own_class :
    let tree : FileTree := ⟨.directory .empty, []⟩
    let source : Source := .text (.named "a")
      "package p; message IntValue \x7b option java_package = \"x\"; \x7d message M \x7b IntValue i = 1; \x7d"
    let accessor : Accessor := ⟨"i", "getI", "setI", .object "p.IntValue"⟩
    let marshaller : MessageMarshaller := ⟨"MMessageMarshaller", "p", "p.M", "p.M", [accessor]⟩
    let own : Message := ⟨"IntValue", "p.IntValue", [], [⟨"java_package", "x"⟩]⟩
    let target : Marshaller := .message ⟨"IntValueMessageMarshaller", "p", "x.IntValue", "p.IntValue", []⟩
    ∃ table file field, SymbolTable.gather {} tree [source] = .ok table ∧ source.load tree [] = .ok file ∧
      .message marshaller ∈ (generate table {}).marshallers ∧ accessor ∈ marshaller.fields ∧
      table.field? marshaller.typeName accessor.fieldName = some field ∧
      field.typeName ∉ Scalar.all.map Scalar.keyword ∧ own ∈ file.messages ∧ own.name = field.typeName ∧
      target ∈ (generate table {}).marshallers ∧ target.typeName = own.fullName ∧
      accessor.access ≠ field.referring target.targetClass := by
  intro tree source accessor marshaller own target
  let field : Field := ⟨"i", "IntValue", 1, .implicit⟩
  let file : SchemaFile := ⟨.named "a", none, "p", [], [], [own, ⟨"M", "p.M", [field], []⟩], []⟩
  have loaded : source.load tree [] = .ok file := Source.load_ofList (by decide +kernel) (by decide +kernel)
  let table : SymbolTable := SymbolTable.wellKnown.append file
  have registered : SymbolTable.wellKnown.register file = .ok (.added table) := by decide +kernel
  exact ⟨table, file, field, SymbolTable.gather_single loaded registered, loaded, by decide +kernel⟩

end

end

end SchemaMarshal
