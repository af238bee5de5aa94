import SchemaMarshal.Proofs.Insertion
import SchemaMarshal.Proofs.Reports

/-! A source that is given again changes nothing that can be seen in the output.

Its types are known by then, so it is skipped or leaves a file without types behind. Such files move
the places of later ones, but the declarations of the table stay the same, and so do the outcome of
every later registration and the report.
-/

set_option autoImplicit false

namespace SchemaMarshal

namespace SymbolTable

variable {table first second : SymbolTable} {file : SchemaFile}

/-- The tables differ at most in files without types and in where the index finds the others. -/
structure Alike (first second : SymbolTable) : Prop where
  firstUnambiguous : first.Unambiguous
  secondUnambiguous : second.Unambiguous
  reservedPackage : first.reservedPackage = second.reservedPackage
  declarations : first.declarations = second.declarations

theorem Alike.symm (alike : first.Alike second) : second.Alike first :=
  ⟨alike.secondUnambiguous, alike.firstUnambiguous, alike.reservedPackage.symm, alike.declarations.symm⟩

theorem Alike.standing_eq (alike : first.Alike second) (symbol : Symbol) :
    first.standing symbol = second.standing symbol := by
  simp only [standing, alike.firstUnambiguous.declaration?_eq_find?, alike.secondUnambiguous.declaration?_eq_find?,
    alike.declarations]

theorem Alike.conflict?_eq (alike : first.Alike second) (identifier : Identifier) (symbol : Symbol) :
    first.conflict? identifier symbol = second.conflict? identifier symbol := by
  simp only [conflict?, alike.standing_eq]

theorem mem_files_of_alike (alike : first.Alike second) {symbol : Symbol} (declared : symbol ∈ file.symbols)
    (listed : file ∈ first.files) : file ∈ second.files := by
  have member := mem_declarations_iff.mpr ⟨listed, declared⟩
  rw [alike.declarations] at member
  exact (mem_declarations_iff.mp member).1

/-- A file whose types are all registered adds no declaration. -/
theorem register_known (unambiguous : table.Unambiguous)
    (known : ∀ symbol ∈ file.symbols, symbol ∈ table.symbols) :
    ∃ registration, table.register file = .ok registration ∧
      (registration.tableFrom table).reservedPackage = table.reservedPackage ∧
      (registration.tableFrom table).declarations = table.declarations := by
  have registered : ∀ symbol ∈ file.symbols, table.get? symbol.fullName = some symbol :=
    fun symbol declared => unambiguous.get?_fullName (known symbol declared)
  refine ⟨_, register_of_known registered, ?_⟩
  split
  · exact ⟨rfl, rfl⟩
  · refine ⟨rfl, ?_⟩
    simp [Registration.tableFrom, declarations_append, SchemaFile.declarations, SchemaFile.symbols_restrict]

/-- Both tables refuse a file with the same error, or take it and stay alike. -/
theorem register_agree (alike : first.Alike second) (distinct : file.fullNames.Nodup) :
    Agree (fun registration other => (registration.tableFrom first).Alike (other.tableFrom second))
      (first.register file) (second.register file) := by
  by_cases empty : file.symbols = []
  · -- One table may know the file and the other not, but there is nothing in it to add.
    obtain ⟨registration, registered, reserved, declared⟩ :=
      register_known alike.firstUnambiguous (by simp [empty] : ∀ symbol ∈ file.symbols, symbol ∈ first.symbols)
    obtain ⟨other, otherRegistered, otherReserved, otherDeclared⟩ :=
      register_known alike.secondUnambiguous (by simp [empty] : ∀ symbol ∈ file.symbols, symbol ∈ second.symbols)
    rw [registered, otherRegistered]
    refine .ok ⟨alike.firstUnambiguous.tableFrom distinct registered,
      alike.secondUnambiguous.tableFrom distinct otherRegistered, ?_, ?_⟩
    · rw [reserved, otherReserved, alike.reservedPackage]
    · rw [declared, otherDeclared, alike.declarations]
  · obtain ⟨symbol, declared⟩ := List.exists_mem_of_ne_nil _ empty
    have listed : file ∈ first.files ↔ file ∈ second.files :=
      ⟨mem_files_of_alike alike declared, mem_files_of_alike alike.symm declared⟩
    by_cases member : file ∈ first.files
    · simp only [register, if_pos member, if_pos (listed.mp member)]
      exact .ok alike
    · have conflicts : second.conflict? file.identifier = first.conflict? file.identifier :=
        funext fun symbol => (alike.conflict?_eq file.identifier symbol).symm
      have kept : (fun symbol => decide (second.standing symbol = .fresh)) =
          fun symbol => decide (first.standing symbol = .fresh) :=
        funext fun symbol => by rw [alike.standing_eq]
      have new := mt listed.mpr member
      cases conflict : file.symbols.findSome? (first.conflict? file.identifier) with
      | some duplicate =>
        rw [register_of_conflict member conflict, register_of_conflict new (conflicts ▸ conflict)]
        exact .error duplicate
      | none =>
        have firstCase := register_of_harmless member conflict
        have secondCase := register_of_harmless new (conflicts ▸ conflict)
        rw [kept] at secondCase
        rw [firstCase, secondCase]
        refine .ok ⟨alike.firstUnambiguous.tableFrom distinct firstCase,
          alike.secondUnambiguous.tableFrom distinct secondCase, alike.reservedPackage, ?_⟩
        simp only [Registration.tableFrom, declarations_append, alike.declarations]

theorem gatherSource_agree {options : GatherOptions} {tree : FileTree} {source : Source} (isText : source.IsText)
    (alike : first.Alike second) :
    Agree Alike (gatherSource options tree first source) (gatherSource options tree second source) := by
  unfold gatherSource
  cases loaded : source.load tree options.resourceRoots with
  | error error => exact .error error
  | ok file =>
    refine ((register_agree alike (isText.fullNames_nodup loaded)).mapError SchemaError.duplicateType).bind ?_
    exact fun registration other after => .ok after

theorem gatherFrom_agree {options : GatherOptions} {tree : FileTree} {sources : List Source}
    (texts : ∀ source ∈ sources, source.IsText) (alike : first.Alike second) :
    Agree Alike (sources.foldlM (gatherSource options tree) first)
      (sources.foldlM (gatherSource options tree) second) := by
  refine Agree.foldlM ?_ alike
  intro source member first second alike
  exact gatherSource_agree (texts source member) alike

end SymbolTable

theorem generate_eq_of_alike {first second : SymbolTable} (alike : first.Alike second) (conventions : Conventions) :
    generate first conventions = generate second conventions := by
  have user : first.userDeclarations = second.userDeclarations := by
    simp only [SymbolTable.userDeclarations, SymbolTable.isReserved, alike.declarations, alike.reservedPackage]
  rw [generate, generate, outcomes_eq, outcomes_eq, user]
  congr 1
  apply List.map_congr_left
  intro declaration _
  apply declarationOutcome_congr
  intro raw
  apply resolve_congr
  rw [alike.declarations]

/-- The name of a text decides neither whether it can be loaded nor what it declares. -/
theorem Source.load_text_other {tree : FileTree} {roots : List String} {identifier : Identifier} {content : String}
    {file : SchemaFile} (loaded : (Source.text identifier content).load tree roots = .ok file)
    (other : Identifier) : (Source.text other content).load tree roots = .ok { file with identifier := other } := by
  obtain ⟨read, valid⟩ := Source.load_eq_ok_iff.mp loaded
  obtain ⟨tokens, statements, tokenized, parsed, rfl⟩ := SchemaFile.parse_eq_ok_iff.mp (mapError_eq_ok_iff.mp read)
  refine Source.load_eq_ok_iff.mpr ⟨mapError_eq_ok_iff.mpr ?_, ?_⟩
  · exact SchemaFile.parse_eq_ok_iff.mpr ⟨tokens, statements, tokenized, parsed, rfl⟩
  · rw [SchemaFile.validate_eq_ok_iff] at valid ⊢
    exact valid

namespace SymbolTable

theorem gatherSource_again {options : GatherOptions} {tree : FileTree} {table : SymbolTable}
    (unambiguous : table.Unambiguous) {identifier : Identifier} {content : String} {file : SchemaFile}
    (loaded : (Source.text identifier content).load tree options.resourceRoots = .ok file)
    (known : ∀ symbol ∈ file.symbols, symbol ∈ table.symbols) (other : Identifier) :
    ∃ after, gatherSource options tree table (.text other content) = .ok after ∧ table.Alike after := by
  have reloaded := Source.load_text_other loaded other
  have distinct := (Source.isText_text other content).fullNames_nodup reloaded
  have stillKnown : ∀ symbol ∈ SchemaFile.symbols { file with identifier := other }, symbol ∈ table.symbols := known
  obtain ⟨registration, registered, reserved, declared⟩ := register_known unambiguous stillKnown
  refine ⟨registration.tableFrom table, gatherSource_eq_ok_iff.mpr ⟨_, registration, reloaded, registered, rfl⟩, ?_⟩
  exact ⟨unambiguous, unambiguous.tableFrom distinct registered, reserved.symm, declared.symm⟩

/-- A text that is given a second time, under its own or another name and anywhere after the first,
changes neither the error of a failing run nor the report of a successful one. -/
theorem gather_repeated (options : GatherOptions) (tree : FileTree) {before between after : List Source}
    (texts : ∀ source ∈ before ++ between ++ after, source.IsText) (identifier other : Identifier)
    (content : String) (conventions : Conventions) :
    (gather options tree (before ++ .text identifier content :: (between ++ .text other content :: after))).map
        (generate · conventions) =
      (gather options tree (before ++ .text identifier content :: (between ++ after))).map
        (generate · conventions) := by
  have split : ∀ rest, gather options tree (before ++ .text identifier content :: (between ++ rest)) =
      gather options tree (before ++ .text identifier content :: between) >>=
        rest.foldlM (gatherSource options tree) := by
    intro rest
    rw [← gather_append, List.append_assoc, List.cons_append]
  rw [split, split]
  -- Up to the repetition both runs are one, and may fail there.
  cases start : gather options tree (before ++ .text identifier content :: between) with
  | error error => rfl
  | ok table =>
    have textsBefore : ∀ source ∈ before ++ .text identifier content :: between, source.IsText := by
      intro source member
      simp only [List.mem_append, List.mem_cons] at member texts
      rcases member with earlier | rfl | later
      · exact texts source (Or.inl (Or.inl earlier))
      · exact Source.isText_text identifier content
      · exact texts source (Or.inl (Or.inr later))
    have unambiguous := unambiguous_of_gather textsBefore start
    obtain ⟨file, loaded⟩ := gatherFrom_loads start (.text identifier content) (by simp [allSources])
    have known : ∀ symbol ∈ file.symbols, symbol ∈ table.symbols := by
      intro symbol declared
      exact (mem_symbols_of_gather start symbol).mpr
        (Source.mem_allSymbols_iff.mpr ⟨.text identifier content, by simp [allSources], file, loaded, declared⟩)
    obtain ⟨again, gatheredAgain, alike⟩ := gatherSource_again unambiguous loaded known other
    have textsAfter : ∀ source ∈ after, source.IsText :=
      fun source member => texts source (List.mem_append_right _ member)
    have agree : Agree Alike (after.foldlM (gatherSource options tree) again)
        (after.foldlM (gatherSource options tree) table) := gatherFrom_agree textsAfter alike.symm
    simp only [List.foldlM_cons, bind, Except.bind, gatheredAgain]
    exact agree.map_eq fun first second same => generate_eq_of_alike same conventions

/-- The repeated text has lost a type to an earlier one, so it is registered again without types. -/
theorem gather_repeated_overlap :
    let options : GatherOptions := { reservedPackage := "core", wellKnownText := "package core;" }
    let tree : FileTree := ⟨.directory .empty, []⟩
    let first : Source := .text (.named "a") "package p; message M \x7b \x7d"
    let content := "package p; message M \x7b \x7d message N \x7b M m = 1; \x7d"
    let last : Source := .text (.named "d") "package p; message O \x7b N n = 1; X x = 2; \x7d"
    let once := [first, .text (.named "b") content, last]
    let twice := [first, .text (.named "b") content, .text (.named "c") content, last]
    (gather options tree once).toOption.map (·.files.length) = some 4 ∧
      (gather options tree twice).toOption.map (·.files.length) = some 5 ∧
      (gather options tree twice).map (generate · {}) = (gather options tree once).map (generate · {}) := by
  intro options tree first content last once twice
  have texts : ∀ source ∈ [first] ++ [] ++ [last], source.IsText := by simp [first, last]
  exact ⟨by decide +kernel, by decide +kernel, gather_repeated options tree texts _ _ _ _⟩

end SymbolTable

end SchemaMarshal
