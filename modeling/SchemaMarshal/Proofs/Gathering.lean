import SchemaMarshal.Proofs.FullNames
import SchemaMarshal.Proofs.Success
import SchemaMarshal.Source

/-! Gathering as the union of what the sources declare.

A gathered table lists exactly the declarations of its sources. For texts, gathering succeeds when
every text can be loaded and no two declarations of one full name differ. Neither mentions the order
of the sources.
-/

set_option autoImplicit false

namespace SchemaMarshal

/-- No two of the declarations have the same full name and differ. -/
def Compatible (declared : Symbol → Prop) : Prop :=
  ∀ ⦃first second : Symbol⦄, declared first → declared second → first.fullName = second.fullName →
    first = second

namespace SymbolTable

variable {table : SymbolTable} {file : SchemaFile}

theorem Unambiguous.tableFrom {registration : Registration} (unambiguous : table.Unambiguous) (distinct : file.fullNames.Nodup)
    (registered : table.register file = .ok registration) : (registration.tableFrom table).Unambiguous := by
  rcases register_cases registered with ⟨rfl, -⟩ | ⟨-, rfl⟩
  · exact unambiguous
  · exact unambiguous.append_fresh distinct

-- A declaration that is not added is registered already, under the same name and with the same content.
theorem mem_symbols_tableFrom {registration : Registration} (registered : table.register file = .ok registration) (symbol : Symbol) :
    symbol ∈ (registration.tableFrom table).symbols ↔ symbol ∈ table.symbols ∨ symbol ∈ file.symbols := by
  rcases register_cases registered with ⟨rfl, member⟩ | ⟨harmless, rfl⟩
  · constructor
    · exact Or.inl
    · intro known
      rcases known with earlier | repeated
      · exact earlier
      · exact mem_symbols_iff.mpr ⟨file, member, repeated⟩
  · simp only [Registration.tableFrom, symbols_append, SchemaFile.symbols_restrict, List.mem_append,
      List.mem_filter, decide_eq_true_eq, standing_eq_fresh_iff]
    constructor
    · intro listed
      rcases listed with earlier | ⟨added, -⟩
      · exact Or.inl earlier
      · exact Or.inr added
    · intro known
      rcases known with earlier | declared
      · exact Or.inl earlier
      · cases found : table.get? symbol.fullName with
        | none => exact Or.inr ⟨declared, rfl⟩
        | some known =>
          have same := conflict?_eq_none_iff.mp (harmless symbol declared) known found
          exact Or.inl (same ▸ (of_get? found).1)

theorem Unambiguous.get?_eq_some_iff (unambiguous : table.Unambiguous) (name : String) (symbol : Symbol) :
    table.get? name = some symbol ↔ symbol ∈ table.symbols ∧ symbol.fullName = name := by
  constructor
  · exact of_get?
  · intro registered
    obtain ⟨member, rfl⟩ := registered
    exact unambiguous.get?_fullName member

theorem register_ok_iff (unambiguous : table.Unambiguous) (distinct : file.fullNames.Nodup) :
    (∃ registration, table.register file = .ok registration) ↔
      Compatible fun symbol => symbol ∈ table.symbols ∨ symbol ∈ file.symbols := by
  constructor
  · intro success first second firstMember secondMember same
    obtain ⟨registration, registered⟩ := success
    rw [← mem_symbols_tableFrom registered] at firstMember secondMember
    exact (unambiguous.tableFrom distinct registered).eq_of_fullName firstMember secondMember same
  · intro compatible
    have harmless : ∀ symbol ∈ file.symbols, table.conflict? file.identifier symbol = none := by
      intro symbol declared
      rw [conflict?_eq_none_iff]
      intro known found
      obtain ⟨earlier, named⟩ := of_get? found
      exact compatible (Or.inl earlier) (Or.inr declared) named
    unfold register
    split
    · exact ⟨_, rfl⟩
    · rw [List.findSome?_eq_none_iff.mpr harmless]
      exact ⟨_, rfl⟩

end SymbolTable

def Source.Declares (tree : FileTree) (roots : List String) (source : Source) (symbol : Symbol) : Prop :=
  ∃ file, source.load tree roots = .ok file ∧ symbol ∈ file.symbols

theorem Source.declares_iff {tree : FileTree} {roots : List String} {source : Source} {file : SchemaFile}
    (loaded : source.load tree roots = .ok file) (symbol : Symbol) :
    source.Declares tree roots symbol ↔ symbol ∈ file.symbols := by
  constructor
  · intro declares
    obtain ⟨again, reloaded, member⟩ := declares
    rw [loaded, Except.ok.injEq] at reloaded
    exact reloaded ▸ member
  · intro member
    exact ⟨file, loaded, member⟩

theorem Source.load_eq_ok_iff {tree : FileTree} {roots : List String} {source : Source} {file : SchemaFile} :
    source.load tree roots = .ok file ↔ source.read tree roots = .ok file ∧ file.validate = .ok () := by
  unfold Source.load
  simp only [bind_eq_ok_iff, mapError_eq_ok_iff, pure, Except.pure, Except.ok.injEq]
  constructor
  · rintro ⟨_, read, _, valid, rfl⟩
    exact ⟨read, valid⟩
  · rintro ⟨read, valid⟩
    exact ⟨file, read, (), valid, rfl⟩

theorem Source.valid_of_load {tree : FileTree} {roots : List String} {source : Source} {file : SchemaFile}
    (loaded : source.load tree roots = .ok file) : file.duplicate? = none :=
  file.validate_eq_ok_iff.mp (Source.load_eq_ok_iff.mp loaded).2

theorem Source.names_nodup_of_load {tree : FileTree} {roots : List String} {source : Source} {file : SchemaFile}
    (loaded : source.load tree roots = .ok file) : (file.symbols.map Symbol.name).Nodup := by
  have names : file.symbols.map Symbol.name = file.typeNames := by
    simp only [SchemaFile.symbols, SchemaFile.typeNames, List.map_append, List.map_map]
    rfl
  rw [names]
  exact (file.duplicate?_eq_none_iff.mp (Source.valid_of_load loaded)).1

def Source.IsText (source : Source) : Prop := ∃ identifier content, source = .text identifier content

@[simp] theorem Source.isText_text (identifier : Identifier) (content : String) :
    (Source.text identifier content).IsText := ⟨identifier, content, rfl⟩

theorem Source.IsText.fullNames_nodup {tree : FileTree} {roots : List String} {source : Source}
    (isText : source.IsText) {file : SchemaFile} (loaded : source.load tree roots = .ok file) :
    file.fullNames.Nodup := by
  obtain ⟨identifier, content, rfl⟩ := isText
  obtain ⟨read, valid⟩ := Source.load_eq_ok_iff.mp loaded
  exact SchemaFile.fullNames_nodup_of_parse (mapError_eq_ok_iff.mp read) valid

namespace SymbolTable

variable {options : GatherOptions} {tree : FileTree}

theorem gatherSource_eq_ok_iff {table after : SymbolTable} {source : Source} :
    gatherSource options tree table source = .ok after ↔
      ∃ file registration, source.load tree options.resourceRoots = .ok file ∧
        table.register file = .ok registration ∧ registration.tableFrom table = after := by
  unfold gatherSource
  simp only [bind_eq_ok_iff, mapError_eq_ok_iff, pure, Except.pure, Except.ok.injEq]
  constructor
  · rintro ⟨file, loaded, registration, registered, same⟩
    exact ⟨file, registration, loaded, registered, same⟩
  · rintro ⟨file, registration, loaded, registered, same⟩
    exact ⟨file, loaded, registration, registered, same⟩

theorem gatherFrom_loads {table after : SymbolTable} {sources : List Source}
    (gathered : sources.foldlM (gatherSource options tree) table = .ok after) :
    ∀ source ∈ sources, ∃ file, source.load tree options.resourceRoots = .ok file := by
  induction sources generalizing table with
  | nil => simp
  | cons source rest ih =>
    obtain ⟨middle, first, later⟩ := foldlM_cons_eq_ok_iff.mp gathered
    obtain ⟨file, registration, loaded, -, -⟩ := gatherSource_eq_ok_iff.mp first
    exact List.forall_mem_cons.mpr ⟨⟨file, loaded⟩, ih later⟩

theorem gatherFrom_symbols {table after : SymbolTable} {sources : List Source}
    (gathered : sources.foldlM (gatherSource options tree) table = .ok after) (symbol : Symbol) :
    symbol ∈ after.symbols ↔
      symbol ∈ table.symbols ∨ ∃ source ∈ sources, source.Declares tree options.resourceRoots symbol := by
  induction sources generalizing table with
  | nil =>
    cases gathered
    simp
  | cons source rest ih =>
    obtain ⟨middle, first, later⟩ := foldlM_cons_eq_ok_iff.mp gathered
    obtain ⟨file, registration, loaded, registered, rfl⟩ := gatherSource_eq_ok_iff.mp first
    rw [ih later, mem_symbols_tableFrom registered, List.exists_mem_cons_iff,
      Source.declares_iff loaded, or_assoc]

theorem gatherFrom_unambiguous {table after : SymbolTable} (unambiguous : table.Unambiguous) {sources : List Source}
    (distinct : ∀ source ∈ sources, ∀ file, source.load tree options.resourceRoots = .ok file →
      file.fullNames.Nodup)
    (gathered : sources.foldlM (gatherSource options tree) table = .ok after) : after.Unambiguous := by
  induction sources generalizing table with
  | nil =>
    cases gathered
    exact unambiguous
  | cons source rest ih =>
    obtain ⟨middle, first, later⟩ := foldlM_cons_eq_ok_iff.mp gathered
    obtain ⟨file, registration, loaded, registered, rfl⟩ := gatherSource_eq_ok_iff.mp first
    refine ih (unambiguous.tableFrom (distinct source (by simp) file loaded) registered) ?_ later
    intro other member
    exact distinct other (List.mem_cons_of_mem _ member)

/-- Gathering succeeds exactly when all sources can be loaded and are compatible with each other
and with the table. -/
theorem gatherFrom_ok_iff {table : SymbolTable} (unambiguous : table.Unambiguous) {sources : List Source}
    (distinct : ∀ source ∈ sources, ∀ file, source.load tree options.resourceRoots = .ok file →
      file.fullNames.Nodup) :
    (∃ after, sources.foldlM (gatherSource options tree) table = .ok after) ↔
      (∀ source ∈ sources, ∃ file, source.load tree options.resourceRoots = .ok file) ∧
        Compatible fun symbol => symbol ∈ table.symbols ∨
          ∃ source ∈ sources, source.Declares tree options.resourceRoots symbol := by
  constructor
  · intro success
    obtain ⟨after, gathered⟩ := success
    have afterUnambiguous := gatherFrom_unambiguous unambiguous distinct gathered
    refine ⟨gatherFrom_loads gathered, ?_⟩
    intro first second firstDeclared secondDeclared same
    exact afterUnambiguous.eq_of_fullName ((gatherFrom_symbols gathered first).mpr firstDeclared)
      ((gatherFrom_symbols gathered second).mpr secondDeclared) same
  · intro loadable
    obtain ⟨loads, compatible⟩ := loadable
    -- Every step asks of the first source only what is asked of all of them together.
    induction sources generalizing table with
    | nil => exact ⟨table, rfl⟩
    | cons source rest ih =>
      obtain ⟨file, loaded⟩ := loads source (by simp)
      have fileDistinct := distinct source (by simp) file loaded
      have declared : ∀ symbol, (symbol ∈ table.symbols ∨ symbol ∈ file.symbols) ∨
          (∃ other ∈ rest, other.Declares tree options.resourceRoots symbol) ↔
          symbol ∈ table.symbols ∨ ∃ other ∈ source :: rest, other.Declares tree options.resourceRoots symbol := by
        intro symbol
        rw [List.exists_mem_cons_iff, Source.declares_iff loaded, or_assoc]
      have agreed : Compatible fun symbol => symbol ∈ table.symbols ∨ symbol ∈ file.symbols :=
        fun first second firstMember secondMember same =>
          compatible ((declared first).mp (Or.inl firstMember)) ((declared second).mp (Or.inl secondMember)) same
      obtain ⟨registration, registered⟩ := (register_ok_iff unambiguous fileDistinct).mpr agreed
      have later := ih (unambiguous.tableFrom fileDistinct registered)
        (fun other member => distinct other (List.mem_cons_of_mem _ member))
        (fun other member => loads other (List.mem_cons_of_mem _ member))
        (by
          intro first second firstMember secondMember same
          rw [mem_symbols_tableFrom registered] at firstMember secondMember
          exact compatible ((declared first).mp firstMember) ((declared second).mp secondMember) same)
      obtain ⟨after, gathered⟩ := later
      exact ⟨after, foldlM_cons_eq_ok_iff.mpr ⟨_, gatherSource_eq_ok_iff.mpr
        ⟨file, registration, loaded, registered, rfl⟩, gathered⟩⟩

/-- Whatever the sources are, every registered message has passed validation. -/
theorem message_valid_of_gather {table : SymbolTable} {sources : List Source}
    (gathered : gather options tree sources = .ok table) {file : SchemaFile} (listed : file ∈ table.files)
    {message : Message} (declared : message ∈ file.messages) : message.duplicate? = none := by
  have registered : Symbol.message message ∈ table.symbols :=
    mem_symbols_iff.mpr ⟨file, listed, List.mem_append_left _ (List.mem_map_of_mem declared)⟩
  rcases (gatherFrom_symbols gathered _).mp registered with none | ⟨source, -, loadedFile, loaded, member⟩
  · cases none
  · apply ((SchemaFile.duplicate?_eq_none_iff loadedFile).mp (Source.valid_of_load loaded)).2.1
    simpa [SchemaFile.symbols] using member

/-- Two tables of the same declarations answer alike, wherever these are declared. -/
theorem Unambiguous.answers_eq {first second : SymbolTable} (firstUnambiguous : first.Unambiguous)
    (secondUnambiguous : second.Unambiguous) (same : ∀ symbol, symbol ∈ first.symbols ↔ symbol ∈ second.symbols) :
    first.fullNames = second.fullNames ∧ first.size = second.size ∧
      ∀ name, first.get? name = second.get? name := by
  have names : first.fullNames = second.fullNames := by
    apply first.indexed.ordered.names_eq second.indexed.ordered
    intro name
    rw [← NameMap.contains_iff, ← NameMap.contains_iff]
    refine contains_iff_declared.trans (Iff.trans ?_ contains_iff_declared.symm)
    simp only [same]
  refine ⟨names, ?_, ?_⟩
  · have lengths := congrArg List.length names
    rwa [fullNames, fullNames, NameMap.length_names, NameMap.length_names] at lengths
  · intro name
    apply Option.ext
    intro symbol
    rw [firstUnambiguous.get?_eq_some_iff, secondUnambiguous.get?_eq_some_iff, same]

theorem allSources_isText {sources : List Source} (texts : ∀ source ∈ sources, source.IsText) :
    ∀ source ∈ allSources options sources, source.IsText := by
  intro source member
  rcases List.mem_cons.mp member with wellKnown | listed
  · exact ⟨_, _, wellKnown⟩
  · exact texts source listed

theorem allSources_distinct {sources : List Source} (texts : ∀ source ∈ sources, source.IsText) :
    ∀ source ∈ allSources options sources, ∀ file, source.load tree options.resourceRoots = .ok file →
      file.fullNames.Nodup :=
  fun source member _ loaded => (allSources_isText texts source member).fullNames_nodup loaded

theorem unambiguous_of_gather {sources : List Source} {table : SymbolTable}
    (texts : ∀ source ∈ sources, source.IsText) (gathered : gather options tree sources = .ok table) :
    table.Unambiguous :=
  gatherFrom_unambiguous (unambiguous_empty options.reservedPackage) (allSources_distinct texts) gathered

-- What texts have to meet does not mention their order.
theorem gather_ok_of_perm {sources permuted : List Source} (texts : ∀ source ∈ sources, source.IsText)
    (perm : sources.Perm permuted) (success : ∃ table, gather options tree sources = .ok table) :
    ∃ table, gather options tree permuted = .ok table := by
  have permutedTexts : ∀ source ∈ permuted, source.IsText := fun source member => texts source (perm.mem_iff.mpr member)
  have reordered : ∀ source, source ∈ allSources options permuted ↔ source ∈ allSources options sources :=
    fun source => (perm.cons _).mem_iff.symm
  have unambiguous := unambiguous_empty options.reservedPackage
  have conditions := (gatherFrom_ok_iff unambiguous (allSources_distinct texts)).mp success
  apply (gatherFrom_ok_iff unambiguous (allSources_distinct permutedTexts)).mpr
  simp only [reordered]
  exact conditions

/-- The order of texts decides neither whether they can be gathered nor what is registered under
any name. -/
theorem gather_perm (options : GatherOptions) (tree : FileTree) {sources permuted : List Source}
    (texts : ∀ source ∈ sources, source.IsText) (perm : sources.Perm permuted) :
    ((∃ table, gather options tree sources = .ok table) ↔ ∃ table, gather options tree permuted = .ok table) ∧
    ∀ first second, gather options tree sources = .ok first → gather options tree permuted = .ok second →
      first.fullNames = second.fullNames ∧ first.size = second.size ∧
        ∀ name, first.get? name = second.get? name := by
  have permutedTexts : ∀ source ∈ permuted, source.IsText := fun source member => texts source (perm.mem_iff.mpr member)
  constructor
  · exact ⟨gather_ok_of_perm texts perm, gather_ok_of_perm permutedTexts perm.symm⟩
  · intro first second gathered permutedGathered
    apply (unambiguous_of_gather texts gathered).answers_eq (unambiguous_of_gather permutedTexts permutedGathered)
    intro symbol
    have reordered : (allSources options sources).Perm (allSources options permuted) := perm.cons _
    rw [gatherFrom_symbols gathered, gatherFrom_symbols permutedGathered]
    simp only [reordered.mem_iff]

/-- Both texts declare the message, which only one of the registered files keeps. -/
theorem gather_perm_overlap :
    let options : GatherOptions := { reservedPackage := "core", wellKnownText := "package core;" }
    let tree : FileTree := ⟨.directory .empty, []⟩
    let first : Source := .text (.named "a") "package p; message M \x7b X x = 1; \x7d"
    let second : Source := .text (.named "b") "package p; enum X \x7b A = 0; \x7d message M \x7b X x = 1; \x7d"
    ∃ table reordered, gather options tree [first, second] = .ok table ∧
      gather options tree [second, first] = .ok reordered ∧ table.fullNames = reordered.fullNames ∧
      table.size = reordered.size ∧ ∀ name, table.get? name = reordered.get? name := by
  intro options tree first second
  have succeeds : (gather options tree [first, second]).toOption.isSome := by decide +kernel
  have texts : ∀ source ∈ [first, second], source.IsText := by
    intro source member
    rcases List.mem_pair.mp member with rfl | rfl
    · exact ⟨_, _, rfl⟩
    · exact ⟨_, _, rfl⟩
  obtain ⟨success, answers⟩ := gather_perm options tree texts (List.Perm.swap second first [])
  obtain ⟨table, found⟩ := Option.isSome_iff_exists.mp succeeds
  have gathered := toOption_eq_some_iff.mp found
  obtain ⟨reordered, again⟩ := success.mp ⟨table, gathered⟩
  exact ⟨table, reordered, gathered, again, answers table reordered gathered again⟩

end SymbolTable

end SchemaMarshal
