import SchemaMarshal.Proofs.Insertion

/-! How many types of a gathered table carry one full name.

Two files never share one, whatever the sources are: a file is compared with all that is registered
before it. It is not compared with itself there, and validation compares simple names. So a full name
is carried twice exactly if a ready file came with it twice.
-/

set_option autoImplicit false

namespace SchemaMarshal

namespace Source

variable {tree : FileTree} {roots : List String}

theorem parsed_of_readFile {identifier : Identifier} {path : String} {file : SchemaFile}
    (read : readFile tree identifier path = .ok file) : ∃ text, SchemaFile.parse identifier text = .ok file := by
  simp only [readFile, bind_eq_ok_iff] at read
  obtain ⟨bytes, -, text, -, parsed⟩ := read
  exact ⟨text, mapError_eq_ok_iff.mp parsed⟩

/-- A source that is not ready is read from some text. -/
theorem parsed_of_read {source : Source} {file : SchemaFile} (read : source.read tree roots = .ok file) :
    source = .ready file ∨ ∃ identifier text, SchemaFile.parse identifier text = .ok file := by
  cases source with
  | ready schema =>
    cases read
    exact Or.inl rfl
  | text identifier content => exact Or.inr ⟨identifier, content, mapError_eq_ok_iff.mp read⟩
  | file path => exact Or.inr ⟨_, parsed_of_readFile read⟩
  | resource name =>
    right
    simp only [Source.read, readResource] at read
    split at read
    · exact ⟨_, _, mapError_eq_ok_iff.mp read⟩
    · split at read
      · exact ⟨_, parsed_of_readFile read⟩
      · cases read

theorem fullNames_nodup_of_load {source : Source} {file : SchemaFile} (loaded : source.load tree roots = .ok file)
    (ready : ∀ schema, source = .ready schema → schema.fullNames.Nodup) : file.fullNames.Nodup := by
  obtain ⟨read, valid⟩ := load_eq_ok_iff.mp loaded
  rcases parsed_of_read read with rfl | ⟨identifier, text, parsed⟩
  · exact ready file rfl
  · exact SchemaFile.fullNames_nodup_of_parse parsed valid

end Source

namespace SymbolTable

variable {table after : SymbolTable} {file : SchemaFile} {registration : Registration}

/-- No full name is carried by types of two files. -/
def Apart (table : SymbolTable) : Prop :=
  table.files.Pairwise fun first second => first.fullNames.Disjoint second.fullNames

theorem unambiguous_iff : table.Unambiguous ↔ table.Apart ∧ ∀ file ∈ table.files, file.fullNames.Nodup := by
  rw [Unambiguous, map_fullName_symbols, List.nodup_flatMap, and_comm]
  rfl

theorem apart_empty (reservedPackage : String) : (empty reservedPackage).Apart := List.Pairwise.nil

theorem Apart.tableFrom (apart : table.Apart) (registered : table.register file = .ok registration) :
    (registration.tableFrom table).Apart := by
  rcases register_cases registered with ⟨rfl, -⟩ | ⟨-, rfl⟩
  · exact apart
  · refine List.pairwise_append.mpr ⟨apart, List.pairwise_singleton _ _, ?_⟩
    -- What is kept of the new file has names that no listed file has.
    rintro earlier listed kept member name declared added
    cases List.mem_singleton.mp member
    obtain ⟨symbol, inEarlier, rfl⟩ := SchemaFile.mem_fullNames_iff.mp declared
    obtain ⟨fresh, inKept, same⟩ := SchemaFile.mem_fullNames_iff.mp added
    rw [SchemaFile.symbols_restrict, List.mem_filter, decide_eq_true_eq, standing_eq_fresh_iff] at inKept
    exact get?_eq_none_iff.mp inKept.2 symbol (mem_symbols_iff.mpr ⟨earlier, listed, inEarlier⟩) same.symm

/-- Registering does not hide that a file repeats a full name, as long as its simple names differ. -/
theorem fullNames_nodup_of_register (names : (file.symbols.map Symbol.name).Nodup)
    (registered : table.register file = .ok registration)
    (distinct : ∀ listed ∈ (registration.tableFrom table).files, listed.fullNames.Nodup) :
    file.fullNames.Nodup := by
  rcases register_cases registered with ⟨rfl, listed⟩ | ⟨harmless, rfl⟩
  · exact distinct file listed
  · have kept := distinct (file.restrict fun symbol => table.standing symbol = .fresh)
      (by simp [Registration.tableFrom, append])
    rw [SchemaFile.fullNames, SchemaFile.symbols_restrict] at kept
    refine List.Nodup.map_on ?_ names.of_map
    intro first firstListed second secondListed same
    -- A registered name has one declaration, and both types would be equal to it.
    rcases harmless_iff.mp (harmless first firstListed) with fresh | known
    · have both : ∀ symbol ∈ file.symbols, symbol.fullName = first.fullName →
          symbol ∈ file.symbols.filter fun symbol => table.standing symbol = .fresh := by
        intro symbol listed named
        rw [List.mem_filter, decide_eq_true_eq, standing_eq_fresh_iff, named]
        exact ⟨listed, fresh⟩
      exact List.inj_on_of_nodup_map kept (both first firstListed rfl) (both second secondListed same.symm) same
    · exact conflict?_eq_none_iff.mp (harmless second secondListed) first (same ▸ known)

variable {options : GatherOptions} {tree : FileTree} {sources : List Source}

theorem Apart.gatherFrom (apart : table.Apart)
    (gathered : sources.foldlM (gatherSource options tree) table = .ok after) : after.Apart := by
  induction sources generalizing table with
  | nil =>
    cases gathered
    exact apart
  | cons source rest ih =>
    obtain ⟨middle, first, later⟩ := foldlM_cons_eq_ok_iff.mp gathered
    obtain ⟨file, registration, -, registered, rfl⟩ := gatherSource_eq_ok_iff.mp first
    exact ih (apart.tableFrom registered) later

theorem fullNames_nodup_of_gatherFrom (gathered : sources.foldlM (gatherSource options tree) table = .ok after)
    (distinct : ∀ listed ∈ after.files, listed.fullNames.Nodup) :
    ∀ source ∈ sources, ∀ file, source.load tree options.resourceRoots = .ok file → file.fullNames.Nodup := by
  induction sources generalizing table with
  | nil => simp
  | cons source rest ih =>
    obtain ⟨middle, first, later⟩ := foldlM_cons_eq_ok_iff.mp gathered
    obtain ⟨loaded, registration, load, registered, rfl⟩ := gatherSource_eq_ok_iff.mp first
    obtain ⟨-, added, files, -⟩ := gatherFrom_files later
    refine List.forall_mem_cons.mpr ⟨?_, ih later⟩
    intro file again
    cases load.symm.trans again
    apply fullNames_nodup_of_register (Source.names_nodup_of_load load) registered
    intro listed member
    exact distinct listed (files ▸ List.mem_append_left added member)

/-- In a gathered table a full name is carried twice exactly if one ready source carries it twice. The
two types are then listed in one file, under different simple names. -/
theorem gather_unambiguous_iff (options : GatherOptions) (tree : FileTree) {sources : List Source}
    {table : SymbolTable} (gathered : gather options tree sources = .ok table) :
    ((table.files.flatMap SchemaFile.fullNames).Nodup ↔
      ∀ schema, Source.ready schema ∈ sources → schema.fullNames.Nodup) ∧
    table.files.Pairwise (fun first second => first.fullNames.Disjoint second.fullNames) ∧
    ∀ file ∈ table.files, (file.symbols.map Symbol.name).Nodup := by
  have apart : table.Apart := (apart_empty options.reservedPackage).gatherFrom gathered
  refine ⟨?_, apart, ?_⟩
  · rw [← map_fullName_symbols]
    constructor
    · intro unambiguous schema ready
      have member : Source.ready schema ∈ allSources options sources := List.mem_cons_of_mem _ ready
      obtain ⟨file, loaded⟩ := gatherFrom_loads gathered _ member
      cases (Source.load_eq_ok_iff.mp loaded).1
      exact fullNames_nodup_of_gatherFrom gathered (unambiguous_iff.mp unambiguous).2 _ member _ loaded
    · intro ready
      apply gatherFrom_unambiguous (unambiguous_empty options.reservedPackage) ?_ gathered
      intro source member file loaded
      apply Source.fullNames_nodup_of_load loaded
      rintro schema rfl
      rcases List.mem_cons.mp member with wellKnown | listed
      · cases wellKnown
      · exact ready schema listed
  · intro file listed
    obtain ⟨source, -, loaded, keep, load, rfl⟩ := origin_of_gather gathered listed
    rw [SchemaFile.symbols_restrict]
    exact (Source.names_nodup_of_load load).sublist (List.filter_sublist.map _)

/-- The ready file shares a type with the text and repeats no full name. -/
theorem gather_unambiguous_iff_shared :
    let options : GatherOptions := { reservedPackage := "core", wellKnownText := "package core;" }
    let tree : FileTree := ⟨.directory .empty, []⟩
    let schema : SchemaFile := ⟨.named "b", none, "q", [], [], [⟨"M", "p.M", [], []⟩, ⟨"N", "p.N", [], []⟩], []⟩
    let sources : List Source := [.text (.named "a") "package p; message M \x7b \x7d", .ready schema]
    ∃ table, gather options tree sources = .ok table ∧ schema.fullNames.Nodup ∧
      (table.files.flatMap SchemaFile.fullNames).Nodup := by
  intro options tree schema sources
  have succeeds : (gather options tree sources).toOption.isSome := by decide +kernel
  obtain ⟨table, found⟩ := Option.isSome_iff_exists.mp succeeds
  have gathered := toOption_eq_some_iff.mp found
  have distinct : schema.fullNames.Nodup := by decide
  refine ⟨table, gathered, distinct, (gather_unambiguous_iff options tree gathered).1.mpr ?_⟩
  intro other ready
  have same : other = schema := by simpa [sources] using ready
  exact same ▸ distinct

/-- A ready file with one full name for two types is gathered, and both types are listed. -/
theorem fullName_carried_twice :
    let options : GatherOptions := { reservedPackage := "core", wellKnownText := "package core;" }
    let tree : FileTree := ⟨.directory .empty, []⟩
    let schema : SchemaFile := ⟨.named "a", none, "p", [], [], [⟨"M", "p.T", [], []⟩, ⟨"N", "p.T", [], []⟩], []⟩
    ∃ table, gather options tree [.ready schema] = .ok table ∧
      table.files.flatMap SchemaFile.fullNames = ["p.T", "p.T"] ∧
      ¬ (table.files.flatMap SchemaFile.fullNames).Nodup := by
  intro options tree schema
  have gathered : (gather options tree [.ready schema]).toOption.map
      (fun table => table.files.flatMap SchemaFile.fullNames) = some ["p.T", "p.T"] := by decide +kernel
  obtain ⟨table, found, names⟩ := Option.map_eq_some_iff.mp gathered
  exact ⟨table, toOption_eq_some_iff.mp found, names, by rw [names]; decide⟩

end SymbolTable

end SchemaMarshal
