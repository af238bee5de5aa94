import SchemaMarshal.Proofs.References

/-! Whether a type can be referred to by the full name under which it is registered.

A reference loses its leading points before it is compared with full names, a full name keeps the one
that its package may start with. So the types of such a package are out of reach, and a reference to
one of them means the type of the package without the point, if there is one.
-/

set_option autoImplicit false

namespace SchemaMarshal

namespace SchemaFile

/-- The package is written with a leading point. -/
def Pointed (file : SchemaFile) : Prop := file.package.toList.head? = some '.'

instance : DecidablePred Pointed := fun file => inferInstanceAs (Decidable (file.package.toList.head? = some '.'))

variable {file : SchemaFile} {symbol : Symbol}

/-- Only the package can give a full name a leading point, and it gives it one at most. -/
theorem WellFormed.fullName_cases (wellFormed : file.WellFormed) (declared : symbol ∈ file.symbols) :
    (¬ file.Pointed ∧ symbol.fullName.toList.head? ≠ some '.') ∨
      file.Pointed ∧ ∃ bare : String, symbol.fullName = "." ++ bare ∧ bare.toList.head? ≠ some '.' := by
  obtain ⟨fullName, word⟩ := wellFormed.word declared
  by_cases empty : file.package = ""
  · have bare : symbol.fullName.toList.head? ≠ some '.' := by
      rw [fullName, qualify, if_pos empty]
      simpa using head?_ne_point_of_isWord word []
    exact Or.inl ⟨by simp [Pointed, empty], bare⟩
  · have letters : symbol.fullName.toList = file.package.toList ++ '.' :: symbol.name.toList := by
      simp [fullName, qualify, empty]
    rcases Name.isReference_iff.mp (wellFormed.package.resolve_left empty) with path | ⟨path, valid, pointed⟩
    · refine Or.inl ⟨?_, by rw [letters]; exact head?_ne_point_of_isPath path _⟩
      simpa [Pointed] using head?_ne_point_of_isPath path []
    · refine Or.inr ⟨by simp [Pointed, pointed], String.ofList (path ++ '.' :: symbol.name.toList), ?_, ?_⟩
      · rw [← String.toList_inj, letters, pointed]
        simp
      · rw [String.toList_ofList]
        exact head?_ne_point_of_isPath valid _

end SchemaFile

namespace SymbolTable

variable {options : GatherOptions} {tree : FileTree} {sources : List Source} {table : SymbolTable}

theorem name_ne_of_point (texts : ∀ source ∈ sources, source.IsText)
    (gathered : gather options tree sources = .ok table) {raw : String} (pointed : '.' ∈ raw.toList) :
    ∀ symbol ∈ table.symbols, symbol.name ≠ raw := by
  rintro symbol registered rfl
  obtain ⟨file, listed, declared⟩ := mem_symbols_iff.mp registered
  exact ((wellFormed_of_gather texts gathered listed).qualified declared).2 pointed

/-- A name with a point is no simple name, so it is found only as a full name. -/
theorem resolve_pointed_iff (texts : ∀ source ∈ sources, source.IsText)
    (gathered : gather options tree sources = .ok table) {raw : String} (pointed : '.' ∈ raw.toList)
    {packageOption : String} {usage : SchemaFile} :
    (∃ className, resolve table packageOption usage raw = .resolved className) ↔
      ∃ symbol ∈ table.symbols, symbol.fullName = withoutLeadingPoints raw := by
  rw [resolve_eq_resolved_iff (not_keyword_of_point pointed)]
  constructor
  · rintro ⟨symbol, registered, simple | full⟩
    · exact absurd simple (name_ne_of_point texts gathered pointed symbol registered)
    · exact ⟨symbol, registered, full⟩
  · rintro ⟨symbol, registered, full⟩
    exact ⟨symbol, registered, Or.inr full⟩

theorem resolve_pointed (texts : ∀ source ∈ sources, source.IsText)
    (gathered : gather options tree sources = .ok table) {raw : String} (pointed : '.' ∈ raw.toList)
    {declaring : SchemaFile} {symbol : Symbol} (declared : (declaring, symbol) ∈ table.declarations)
    (meant : withoutLeadingPoints raw = symbol.fullName) (packageOption : String) (usage : SchemaFile) :
    resolve table packageOption usage raw =
      .resolved (targetClass packageOption declaring symbol.settings symbol.name) := by
  have unambiguous := unambiguous_of_gather texts gathered
  have found : table.declaration? symbol.fullName = some (declaring, symbol) := by
    rw [unambiguous.declaration?_eq_find?]
    exact find?_key_of_mem unambiguous.nodup_fullNames declared
  rw [unambiguous.resolve_eq (not_keyword_of_point pointed) (name_ne_of_point texts gathered pointed), meant, found]
  rfl

/-- A type is found under its own full name, with or without a point in front, unless the package of its
file starts with a point. Then both references mean the type whose full name lacks that point. With a
point in front, a full name that is found for its own sake stands for the class of its type. -/
theorem resolve_own_fullName (texts : ∀ source ∈ sources, source.IsText)
    (gathered : gather options tree sources = .ok table) {declaring : SchemaFile} (listed : declaring ∈ table.files)
    {symbol : Symbol} (declared : symbol ∈ declaring.symbols)
    (notScalar : symbol.fullName ∉ Scalar.all.map Scalar.keyword) (packageOption : String) (usage : SchemaFile) :
    let inReach := ¬ declaring.Pointed ∨ ∃ other ∈ table.symbols, "." ++ other.fullName = symbol.fullName
    ((∃ className, resolve table packageOption usage symbol.fullName = .resolved className) ↔ inReach) ∧
    ((∃ className, resolve table packageOption usage ("." ++ symbol.fullName) = .resolved className) ↔ inReach) ∧
    (¬ declaring.Pointed → resolve table packageOption usage ("." ++ symbol.fullName) =
      .resolved (targetClass packageOption declaring symbol.settings symbol.name)) := by
  intro inReach
  have pointInFront : '.' ∈ ("." ++ symbol.fullName).toList := by simp
  rcases (wellFormed_of_gather texts gathered listed).fullName_cases declared with
    ⟨unpointed, head⟩ | ⟨pointed, bare, fullName, head⟩
  · have registered : symbol ∈ table.symbols := mem_symbols_iff.mpr ⟨declaring, listed, declared⟩
    have itself := withoutLeadingPoints_eq_self head
    have own := resolve_pointed texts gathered pointInFront (mem_declarations_iff.mpr ⟨listed, declared⟩)
      ((withoutLeadingPoints_point _).trans itself) packageOption usage
    rw [resolve_eq_resolved_iff notScalar]
    exact ⟨iff_of_true ⟨symbol, registered, Or.inr itself.symm⟩ (Or.inl unpointed),
      iff_of_true ⟨_, own⟩ (Or.inl unpointed), fun _ => own⟩
  · have meant : withoutLeadingPoints symbol.fullName = bare := by
      rw [fullName, withoutLeadingPoints_point, withoutLeadingPoints_eq_self head]
    have reached : (∃ other ∈ table.symbols, other.fullName = bare) ↔ inReach := by
      have cancel : ∀ other : Symbol, "." ++ other.fullName = "." ++ bare ↔ other.fullName = bare := by
        intro other
        simp [← String.toList_inj]
      simp [inReach, pointed, fullName, cancel]
    have point : '.' ∈ symbol.fullName.toList := by simp [fullName]
    rw [resolve_pointed_iff texts gathered point, resolve_pointed_iff texts gathered pointInFront,
      withoutLeadingPoints_point, meant]
    exact ⟨reached, reached, fun unpointed => absurd pointed unpointed⟩

/-- The message is in reach and the enumeration is not, though its name is written as it is registered. -/
theorem resolve_own_fullName_apart :
    let options : GatherOptions := { reservedPackage := "core", wellKnownText := "package core;" }
    let tree : FileTree := ⟨.directory .empty, []⟩
    let sources : List Source :=
      [.text (.named "a") "package p; message M \x7b \x7d", .text (.named "b") "package .q; enum N \x7b A = 0; \x7d"]
    let plain : SchemaFile := ⟨.named "a", none, "p", [], [], [⟨"M", "p.M", [], []⟩], []⟩
    let pointed : SchemaFile := ⟨.named "b", none, ".q", [], [], [], [⟨"N", ".q.N", [⟨"A", 0⟩], []⟩]⟩
    ∃ table, gather options tree sources = .ok table ∧ plain ∈ table.files ∧ pointed ∈ table.files ∧
      resolve table "java_package" pointed ".p.M" = .resolved "p.M" ∧
      ¬ ∃ className, resolve table "java_package" pointed ".q.N" = .resolved className := by
  intro options tree sources plain pointed
  have listing : (gather options tree sources).toOption.map (·.files) =
      some [⟨.named WellKnown.name, none, "core", [], [], [], []⟩, plain, pointed] := by decide +kernel
  obtain ⟨table, found, files⟩ := Option.map_eq_some_iff.mp listing
  have gathered := toOption_eq_some_iff.mp found
  have texts : ∀ source ∈ sources, source.IsText := by simp [sources]
  have first : plain ∈ table.files := by simp [files]
  have second : pointed ∈ table.files := by simp [files]
  have message : .message ⟨"M", "p.M", [], []⟩ ∈ plain.symbols := by decide
  have enumeration : .enumeration ⟨"N", ".q.N", [⟨"A", 0⟩], []⟩ ∈ pointed.symbols := by decide
  have others : ∀ other ∈ table.symbols, "." ++ other.fullName ≠ ".q.N" := by
    rw [symbols, files]
    decide
  obtain ⟨-, -, own⟩ := resolve_own_fullName texts gathered first message (by decide) "java_package" pointed
  obtain ⟨reached, -, -⟩ := resolve_own_fullName texts gathered second enumeration (by decide) "java_package" pointed
  refine ⟨table, gathered, first, second, (own (by decide)).trans (by decide), fun resolved => ?_⟩
  rcases reached.mp resolved with unpointed | ⟨other, registered, same⟩
  · exact unpointed (by decide)
  · exact others other registered same

/-- The only type of its package has a full name that stands for nothing. -/
theorem fullName_unresolved :
    let options : GatherOptions := { reservedPackage := "core", wellKnownText := "package core;" }
    let tree : FileTree := ⟨.directory .empty, []⟩
    let sources : List Source := [.text (.named "a") "package .p; message M \x7b \x7d"]
    (gather options tree sources).toOption.map (fun table => (table.fullNames,
      table.files.map (resolve table "java_package" · ".p.M"), table.files.map (resolve table "java_package" · "..p.M"))) =
      some ([".p.M"], [.unresolved, .unresolved], [.unresolved, .unresolved]) := by
  decide +kernel

end SymbolTable

end SchemaMarshal
