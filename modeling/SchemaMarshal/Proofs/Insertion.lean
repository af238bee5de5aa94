import SchemaMarshal.Proofs.Declarations

/-! One registration: what its answer says about the file and the table, and what it leaves alone.

A refused file is refused for its first conflicting type and leaves no trace. An accepted one stands at
the end of the files without the types that were known. Neither moves a name that is registered, so the
first registration of a name holds for the rest of every run.
-/

set_option autoImplicit false

namespace SchemaMarshal

namespace SymbolTable

variable {table larger : SymbolTable} {file : SchemaFile}

theorem conflict?_eq_some_iff {second : Identifier} {symbol : Symbol} {duplicate : DuplicateType} :
    table.conflict? second symbol = some duplicate ↔
      ∃ declaring registered, table.declaration? symbol.fullName = some (declaring, registered) ∧
        registered ≠ symbol ∧ duplicate = ⟨symbol.fullName, declaring.identifier, second⟩ := by
  unfold conflict? standing
  cases table.declaration? symbol.fullName with
  | none => simp
  | some declaration =>
    obtain ⟨declaring, registered⟩ := declaration
    by_cases same : registered = symbol
    · simp [same]
    · simp [same, eq_comm (a := duplicate)]

/-- Types are taken as they come unless another declaration has their name. -/
theorem harmless_iff {second : Identifier} {symbol : Symbol} :
    table.conflict? second symbol = none ↔
      table.get? symbol.fullName = none ∨ table.get? symbol.fullName = some symbol := by
  rw [conflict?_eq_none_iff]
  cases table.get? symbol.fullName with
  | none => simp
  | some registered => simp

theorem register_of_mem (listed : file ∈ table.files) : table.register file = .ok .skipped := by
  unfold register
  exact if_pos listed

theorem register_of_conflict (new : file ∉ table.files) {duplicate : DuplicateType}
    (conflict : file.symbols.findSome? (table.conflict? file.identifier) = some duplicate) :
    table.register file = .error duplicate := by
  unfold register
  rw [if_neg new, conflict]

theorem register_of_harmless (new : file ∉ table.files)
    (harmless : file.symbols.findSome? (table.conflict? file.identifier) = none) :
    table.register file =
      .ok (.added (table.append (file.restrict fun symbol => table.standing symbol = .fresh))) := by
  unfold register
  rw [if_neg new, harmless]

theorem register_eq_skipped_iff : table.register file = .ok .skipped ↔ file ∈ table.files := by
  constructor
  · intro skipped
    rcases register_cases skipped with ⟨-, listed⟩ | ⟨-, added⟩
    · exact listed
    · cases added
  · exact register_of_mem

theorem register_eq_added_iff :
    table.register file = .ok (.added larger) ↔
      file ∉ table.files ∧
        (∀ symbol ∈ file.symbols, table.get? symbol.fullName = none ∨ table.get? symbol.fullName = some symbol) ∧
        larger = table.append (file.restrict fun symbol => table.standing symbol = .fresh) := by
  constructor
  · intro added
    have new : file ∉ table.files := by
      rw [← register_eq_skipped_iff, added]
      simp
    rcases register_cases added with ⟨skipped, -⟩ | ⟨harmless, same⟩
    · cases skipped
    · exact ⟨new, fun symbol declared => harmless_iff.mp (harmless symbol declared), Registration.added.inj same⟩
  · rintro ⟨new, harmless, rfl⟩
    exact register_of_harmless new
      (List.findSome?_eq_none_iff.mpr fun symbol declared => harmless_iff.mpr (harmless symbol declared))

theorem register_eq_error_iff {duplicate : DuplicateType} :
    table.register file = .error duplicate ↔
      file ∉ table.files ∧ ∃ before symbol after, file.symbols = before ++ symbol :: after ∧
        table.conflict? file.identifier symbol = some duplicate ∧
        ∀ earlier ∈ before, table.conflict? file.identifier earlier = none := by
  rw [← List.findSome?_eq_some_iff]
  constructor
  · intro refused
    have new : file ∉ table.files := by
      intro listed
      rw [register_of_mem listed] at refused
      cases refused
    refine ⟨new, ?_⟩
    cases conflict : file.symbols.findSome? (table.conflict? file.identifier) with
    | none =>
      rw [register_of_harmless new conflict] at refused
      cases refused
    | some found =>
      rw [register_of_conflict new conflict] at refused
      cases refused
      rfl
  · rintro ⟨new, conflict⟩
    exact register_of_conflict new conflict

theorem standing_eq_fresh_iff_contains {symbol : Symbol} :
    table.standing symbol = .fresh ↔ table.contains symbol.fullName = false := by
  rw [standing_eq_fresh_iff, ← Bool.not_eq_true, ← get?_isSome_iff, Option.not_isSome_iff_eq_none]

theorem restrict_fresh (table : SymbolTable) (file : SchemaFile) :
    file.restrict (fun symbol => table.standing symbol = .fresh) =
      file.restrict fun symbol => !table.contains symbol.fullName := by
  congr 1
  funext symbol
  rw [Bool.eq_iff_iff, decide_eq_true_eq, standing_eq_fresh_iff_contains, Bool.not_eq_true']

/-- A procedure on one table. What it has written by the time it fails stays written. -/
abbrev InPlace := ExceptT DuplicateType (StateM SymbolTable)

/-- Look through declarations of one kind for those that are not registered, up to the first conflict. -/
def keepFresh {α : Type} (symbolOf : α → Symbol) (second : Identifier) : List α → InPlace (List α)
  | [] => pure []
  | value :: rest => do
      match (← get).standing (symbolOf value) with
      | .fresh => return value :: (← keepFresh symbolOf second rest)
      | .repeated => keepFresh symbolOf second rest
      | .conflicting first => throw ⟨(symbolOf value).fullName, first, second⟩

/-- Take the messages and then the enumerations of a file, and tell whether the file was added. -/
def registerInPlace (file : SchemaFile) : InPlace Bool := do
  if file ∈ (← get).files then return false
  let messages ← keepFresh .message file.identifier file.messages
  let enumerations ← keepFresh .enumeration file.identifier file.enumerations
  modify (·.append { file with messages := messages, enumerations := enumerations })
  return true

def Registration.isAdded : Registration → Bool
  | .skipped => false
  | .added _ => true

section

variable {α β : Type} {first : InPlace α} {next : α → InPlace β} {after : SymbolTable}

theorem run_bind_of_ok {value : α} (done : first.run.run table = (.ok value, after)) :
    (first >>= next).run.run table = (next value).run.run after := by
  rw [ExceptT.run_bind, StateT.run_bind, done]
  rfl

theorem run_bind_of_error {duplicate : DuplicateType} (failed : first.run.run table = (.error duplicate, after)) :
    (first >>= next).run.run table = (.error duplicate, after) := by
  rw [ExceptT.run_bind, StateT.run_bind, failed]
  rfl

theorem run_get (table : SymbolTable) : (get : InPlace SymbolTable).run.run table = (.ok table, table) := rfl

end

theorem run_keepFresh {α : Type} (table : SymbolTable) (symbolOf : α → Symbol) (second : Identifier)
    (values : List α) :
    (keepFresh symbolOf second values).run.run table =
      ((values.findSome? fun value => table.conflict? second (symbolOf value)).elim
        (.ok (values.filter fun value => table.standing (symbolOf value) = .fresh)) .error, table) := by
  induction values with
  | nil => rfl
  | cons value rest ih =>
    rw [keepFresh, run_bind_of_ok (run_get table)]
    cases standing : table.standing (symbolOf value) with
    | fresh =>
      have harmless : table.conflict? second (symbolOf value) = none := by simp [conflict?, standing]
      rw [List.findSome?_cons_of_isNone (by simp [harmless]), List.filter_cons_of_pos (by simp [standing])]
      cases conflict : rest.findSome? fun value => table.conflict? second (symbolOf value) with
      | none =>
        rw [conflict] at ih
        exact run_bind_of_ok ih
      | some duplicate =>
        rw [conflict] at ih
        exact run_bind_of_error ih
    | repeated =>
      have harmless : table.conflict? second (symbolOf value) = none := by simp [conflict?, standing]
      rw [List.findSome?_cons_of_isNone (by simp [harmless]), List.filter_cons_of_neg (by simp [standing])]
      exact ih
    | conflicting first =>
      have conflict : table.conflict? second (symbolOf value) = some ⟨(symbolOf value).fullName, first, second⟩ := by
        simp [conflict?, standing]
      rw [List.findSome?_cons_of_isSome (by simp [conflict]), conflict]
      rfl

theorem findSome?_symbols {α : Type} (test : Symbol → Option α) (file : SchemaFile) :
    file.symbols.findSome? test =
      (file.messages.findSome? fun message => test (.message message)).or
        (file.enumerations.findSome? fun enumeration => test (.enumeration enumeration)) := by
  simp only [SchemaFile.symbols, List.findSome?_append, List.findSome?_map, Function.comp_def]

/-- Both loops only read, so the procedure fails before it has written anything. -/
theorem run_registerInPlace (table : SymbolTable) (file : SchemaFile) :
    (registerInPlace file).run.run table =
      ((table.register file).map Registration.isAdded, table.offered file) := by
  rw [registerInPlace, run_bind_of_ok (run_get table), offered]
  by_cases listed : file ∈ table.files
  · rw [if_pos listed, register_of_mem listed]
    rfl
  · rw [if_neg listed]
    -- The first conflict is that of the first loop, if it has one, and else that of the second.
    have messages := run_keepFresh table Symbol.message file.identifier file.messages
    have enumerations := run_keepFresh table Symbol.enumeration file.identifier file.enumerations
    have conflicts := findSome?_symbols (table.conflict? file.identifier) file
    cases inMessages : file.messages.findSome? fun message => table.conflict? file.identifier (.message message) with
    | some duplicate =>
      rw [inMessages] at messages conflicts
      rw [register_of_conflict listed conflicts]
      exact run_bind_of_error messages
    | none =>
      rw [inMessages] at messages conflicts
      refine (run_bind_of_ok messages).trans ?_
      cases inEnumerations : file.enumerations.findSome? fun enumeration =>
          table.conflict? file.identifier (.enumeration enumeration) with
      | some duplicate =>
        rw [inEnumerations] at enumerations conflicts
        rw [register_of_conflict listed conflicts]
        exact run_bind_of_error enumerations
      | none =>
        rw [inEnumerations] at enumerations conflicts
        rw [register_of_harmless listed conflicts]
        exact run_bind_of_ok enumerations

/-- The larger table has the files of the other at their places, and names lead where they led. -/
structure Extends (table larger : SymbolTable) : Prop where
  files : table.files <+: larger.files
  index : ∀ ⦃name : String⦄ ⦃location : Location⦄, table.index.get? name = some location →
    larger.index.get? name = some location

namespace Extends

theorem refl (table : SymbolTable) : table.Extends table := ⟨List.prefix_rfl, fun _ _ => id⟩

theorem trans {middle : SymbolTable} (first : table.Extends middle) (later : middle.Extends larger) :
    table.Extends larger :=
  ⟨first.files.trans later.files, fun _ _ found => later.index (first.index found)⟩

theorem declaration?_eq (extension : table.Extends larger) {name : String} {declaration : SchemaFile × Symbol}
    (declared : table.declaration? name = some declaration) : larger.declaration? name = some declaration := by
  obtain ⟨location, found, located⟩ := Option.bind_eq_some_iff.mp declared
  obtain ⟨listed, inside⟩ := Location.declarationIn?_eq_some_iff.mp located
  have kept : larger.files[location.file]? = some declaration.1 := by
    obtain ⟨added, files⟩ := extension.files
    rw [← files, List.getElem?_append_left (List.getElem?_eq_some_iff.mp listed).1, listed]
  exact Option.bind_eq_some_iff.mpr
    ⟨location, extension.index found, Location.declarationIn?_eq_some_iff.mpr ⟨kept, inside⟩⟩

theorem answers_eq (extension : table.Extends larger) {name : String} (contained : table.contains name) :
    larger.contains name ∧ larger.get? name = table.get? name ∧
      larger.declaringFile? name = table.declaringFile? name := by
  obtain ⟨location, found⟩ := Option.isSome_iff_exists.mp contained
  obtain ⟨declaring, symbol, declared⟩ := declaration?_of_contains contained
  have kept := extension.declaration?_eq declared
  exact ⟨Option.isSome_iff_exists.mpr ⟨location, extension.index found⟩, by simp [get?, kept, declared],
    by simp [declaringFile?, kept, declared]⟩

theorem append {file : SchemaFile} (fresh : ∀ symbol ∈ file.symbols, table.contains symbol.fullName = false) :
    table.Extends (table.append file) where
  files := List.prefix_append _ _
  index := by
    intro name location found
    rw [SymbolTable.append, get?_enter_of_not_mem, found]
    intro declared
    obtain ⟨symbol, listed, rfl⟩ := SchemaFile.mem_fullNames_iff.mp declared
    have unknown := fresh symbol listed
    simp [contains, NameMap.contains, found] at unknown

theorem offered (table : SymbolTable) (file : SchemaFile) : table.Extends (table.offered file) := by
  rcases offered_cases table file with same | added
  · rw [same]
    exact refl table
  · rw [added, restrict_fresh]
    apply append
    intro symbol kept
    rw [SchemaFile.symbols_restrict, List.mem_filter] at kept
    simpa using kept.2

theorem offeredAll (table : SymbolTable) (files : List SchemaFile) : table.Extends (table.offeredAll files) := by
  induction files generalizing table with
  | nil => exact refl table
  | cons file rest ih => exact (offered table file).trans (ih (table.offered file))

end Extends

/-- Every answer to an offered file says what it should, and no registered name is ever bound anew. -/
theorem register_accurate (reservedPackage : String) (offers : List SchemaFile) (file : SchemaFile) :
    let table := (empty reservedPackage).offeredAll offers
    let after := table.offered file
    (registerInPlace file).run.run table = ((table.register file).map Registration.isAdded, after) ∧
    (∀ duplicate, table.register file = .error duplicate →
      after = table ∧ duplicate.second = file.identifier ∧
      ∃ declaring registered before symbol rest,
        table.declaringFile? duplicate.fullName = some declaring ∧ declaring ∈ table.files ∧
        duplicate.first = declaring.identifier ∧ table.get? duplicate.fullName = some registered ∧
        file.symbols = before ++ symbol :: rest ∧ symbol.fullName = duplicate.fullName ∧ symbol ≠ registered ∧
        ∀ earlier ∈ before, table.get? earlier.fullName = none ∨ table.get? earlier.fullName = some earlier) ∧
    (table.register file = .ok .skipped ↔ file ∈ table.files) ∧ (file ∈ table.files → after = table) ∧
    (∀ larger, table.register file = .ok (.added larger) → after = larger ∧
      larger.reservedPackage = table.reservedPackage ∧
      larger.files = table.files ++ [file.restrict fun symbol => !table.contains symbol.fullName] ∧
      ∀ symbol ∈ file.symbols,
        table.get? symbol.fullName = none ∨ table.get? symbol.fullName = some symbol) ∧
    ∀ later name, table.contains name →
      let final := after.offeredAll later
      final.contains name ∧ final.get? name = table.get? name ∧
        final.declaringFile? name = table.declaringFile? name := by
  intro table after
  refine ⟨run_registerInPlace table file, ?_, register_eq_skipped_iff, ?_, ?_, ?_⟩
  · intro duplicate refused
    obtain ⟨-, before, symbol, rest, split, conflict, harmless⟩ := register_eq_error_iff.mp refused
    obtain ⟨declaring, registered, declared, different, rfl⟩ := conflict?_eq_some_iff.mp conflict
    refine ⟨offered_of_error refused, rfl, declaring, registered, before, symbol, rest,
      by simp [declaringFile?, declared], (of_declaration? declared).1, rfl, by simp [get?, declared],
      split, rfl, Ne.symm different, ?_⟩
    exact fun earlier listed => harmless_iff.mp (harmless earlier listed)
  · intro listed
    exact offered_of_ok (register_of_mem listed)
  · intro larger added
    obtain ⟨-, harmless, rfl⟩ := register_eq_added_iff.mp added
    refine ⟨offered_of_ok added, rfl, ?_, harmless⟩
    rw [← restrict_fresh]
    rfl
  · intro later name contained final
    have extension : table.Extends final :=
      (Extends.offered table file).trans (Extends.offeredAll after later)
    exact extension.answers_eq contained

/-- The first two types of the third file are new and known, its last one has the name of a message. -/
theorem register_accurate_overlap :
    let line : Message := ⟨"Line", "shop.Line", [], []⟩
    let order : Message := ⟨"Order", "shop.Order", [], []⟩
    let lines : SchemaFile := ⟨.named "lines", none, "shop", [], [], [line], []⟩
    let orders : SchemaFile := ⟨.named "orders", none, "shop", [], [], [line, order], []⟩
    let states : SchemaFile := ⟨.named "states", none, "shop", [], [],
      [⟨"Item", "shop.Item", [], []⟩, line], [⟨"Order", "shop.Order", [], []⟩]⟩
    let table := (empty "core").offeredAll [lines, orders]
    table.register states = .error ⟨"shop.Order", .named "orders", .named "states"⟩ ∧
      table.offered states = table ∧ table.offered lines = table ∧
      ((empty "core").offeredAll [lines]).register orders = .ok (.added table) ∧
      table.files = [lines, { orders with messages := [order] }] ∧
      ((table.offered states).offeredAll [orders]).declaringFile? "shop.Line" = some lines := by
  intro line order lines orders states table
  have refused : table.register states = .error ⟨"shop.Order", .named "orders", .named "states"⟩ := by decide +kernel
  have added : ((empty "core").offeredAll [lines]).register orders = .ok (.added table) := by decide +kernel
  have kept : ((empty "core").offeredAll [lines]).files ++ [orders.restrict fun symbol =>
      !((empty "core").offeredAll [lines]).contains symbol.fullName] = [lines, { orders with messages := [order] }] := by
    decide +kernel
  have first : table.declaringFile? "shop.Line" = some lines := by decide +kernel
  obtain ⟨-, error, -, -, -, keep⟩ := register_accurate "core" [lines, orders] states
  obtain ⟨-, -, -, skip, -, -⟩ := register_accurate "core" [lines, orders] lines
  obtain ⟨-, -, -, -, grow, -⟩ := register_accurate "core" [lines] orders
  obtain ⟨-, -, files, -⟩ := grow table added
  obtain ⟨-, -, declaring⟩ := keep [orders] "shop.Line" (by decide +kernel)
  exact ⟨refused, (error _ refused).1, skip (by decide +kernel), added, files.trans kept, declaring.trans first⟩

theorem get?_append_of_nodup (table : SymbolTable) (distinct : file.fullNames.Nodup) {symbol : Symbol}
    (listed : symbol ∈ file.symbols) : (table.append file).get? symbol.fullName = some symbol := by
  obtain ⟨kind, place, found, entry, inside, named⟩ :=
    get?_enter_of_mem table.files.length table.index (SchemaFile.mem_fullNames_iff.mpr ⟨symbol, listed, rfl⟩)
  have same : found = symbol := List.inj_on_of_nodup_map distinct (SchemaFile.symbolAt?_mem inside) listed named
  have located : Location.declarationIn? ⟨table.files.length, kind, place⟩ (table.files ++ [file]) =
      some (file, found) :=
    Location.declarationIn?_eq_some_iff.mpr ⟨by simp, inside⟩
  simp [get?, declaration?, append, entry, located, same]

theorem register_of_known (known : ∀ symbol ∈ file.symbols, table.get? symbol.fullName = some symbol) :
    table.register file =
      .ok (if file ∈ table.files then .skipped else .added (table.append (file.restrict fun _ => false))) := by
  by_cases listed : file ∈ table.files
  · rw [if_pos listed, register_of_mem listed]
  · have harmless : file.symbols.findSome? (table.conflict? file.identifier) = none :=
      List.findSome?_eq_none_iff.mpr fun symbol declared => harmless_iff.mpr (Or.inr (known symbol declared))
    have nothing : file.restrict (fun symbol => table.standing symbol = .fresh) = file.restrict fun _ => false := by
      apply SchemaFile.restrict_congr
      intro symbol declared
      simp [standing_eq_fresh_iff, known symbol declared]
    rw [if_neg listed, register_of_harmless listed harmless, nothing]

theorem index_append_restrict_none (table : SymbolTable) (file : SchemaFile) :
    (table.append (file.restrict fun _ => false)).index = table.index := by
  simp [append, SchemaFile.restrict, enter, locate]

theorem get?_of_added (distinct : file.fullNames.Nodup)
    (added : table.register file = .ok (.added larger)) {symbol : Symbol} (declared : symbol ∈ file.symbols) :
    larger.get? symbol.fullName = some symbol := by
  have extension : table.Extends larger := by
    rw [← show table.offered file = larger from offered_of_ok added]
    exact Extends.offered table file
  obtain ⟨-, harmless, rfl⟩ := register_eq_added_iff.mp added
  rcases harmless symbol declared with fresh | known
  · apply get?_append_of_nodup table
    · rw [SchemaFile.fullNames, SchemaFile.symbols_restrict]
      exact distinct.sublist (List.filter_sublist.map _)
    · rw [SchemaFile.symbols_restrict, List.mem_filter, decide_eq_true_eq, standing_eq_fresh_iff]
      exact ⟨declared, fresh⟩
  · -- The type was dropped, but then it is known from an earlier file, which keeps the name.
    obtain ⟨⟨declaring, _⟩, found, rfl⟩ := Option.map_eq_some_iff.mp known
    simp [get?, extension.declaration?_eq found]

/-- The file is listed, or would be listed with all its types. -/
def TakesWhole (table : SymbolTable) (file : SchemaFile) : Prop :=
  file ∈ table.files ∨ ∀ symbol ∈ file.symbols, table.contains symbol.fullName = false

theorem eq_restrict_fresh_iff :
    file = file.restrict (fun symbol => table.standing symbol = .fresh) ↔
      ∀ symbol ∈ file.symbols, table.contains symbol.fullName = false := by
  simp only [← standing_eq_fresh_iff_contains]
  constructor
  · intro same
    have kept := congrArg SchemaFile.symbols same
    rw [SchemaFile.symbols_restrict] at kept
    simpa using List.filter_eq_self.mp kept.symm
  · intro fresh
    exact (SchemaFile.restrict_eq_self fun symbol listed => decide_eq_true (fresh symbol listed)).symm

theorem mem_files_of_added (added : table.register file = .ok (.added larger)) :
    file ∈ larger.files ↔ table.TakesWhole file := by
  obtain ⟨new, -, rfl⟩ := register_eq_added_iff.mp added
  simp [TakesWhole, append, new, eq_restrict_fresh_iff]

/-- A file that was registered is skipped the next time exactly if the table has it with all its types.
Otherwise it is added once more, without types and without a change to the index. -/
theorem register_again (reservedPackage : String) (offers : List SchemaFile) {file : SchemaFile}
    (distinct : file.fullNames.Nodup) {registration : Registration}
    (registered : ((empty reservedPackage).offeredAll offers).register file = .ok registration) :
    let table := (empty reservedPackage).offeredAll offers
    let after := registration.tableFrom table
    (table.TakesWhole file → after.register file = .ok .skipped) ∧
    (¬ table.TakesWhole file → ∃ larger, after.register file = .ok (.added larger) ∧
      larger.reservedPackage = after.reservedPackage ∧
      larger.files = after.files ++ [file.restrict fun _ => false] ∧ larger.index = after.index) := by
  intro table after
  cases registration with
  | skipped =>
    have listed : file ∈ table.files := register_eq_skipped_iff.mp registered
    exact ⟨fun _ => register_of_mem listed, fun dropped => absurd (Or.inl listed) dropped⟩
  | added larger =>
    have again := register_of_known fun symbol declared => get?_of_added distinct registered declared
    have listed := mem_files_of_added registered
    constructor
    · intro whole
      rw [if_pos (listed.mpr whole)] at again
      exact again
    · intro dropped
      rw [if_neg (mt listed.mp dropped)] at again
      exact ⟨_, again, rfl, rfl, index_append_restrict_none larger file⟩

/-- A file of new types is skipped, one that shares a type with an earlier file is not. -/
theorem register_again_overlap :
    let line : Message := ⟨"Line", "shop.Line", [], []⟩
    let order : Message := ⟨"Order", "shop.Order", [], []⟩
    let lines : SchemaFile := ⟨.named "lines", none, "shop", [], [], [line], []⟩
    let orders : SchemaFile := ⟨.named "orders", none, "shop", [], [], [line, order], []⟩
    let whole := (empty "core").offered lines
    let shared := whole.offered orders
    lines.fullNames.Nodup ∧ orders.fullNames.Nodup ∧
      (empty "core").register lines = .ok (.added whole) ∧ whole.register orders = .ok (.added shared) ∧
      whole.register lines = .ok .skipped ∧
      ∃ larger, shared.register orders = .ok (.added larger) ∧ larger.reservedPackage = shared.reservedPackage ∧
        larger.files = shared.files ++ [{ orders with messages := [] }] ∧ larger.index = shared.index := by
  intro line order lines orders whole shared
  have first : (empty "core").register lines = .ok (.added whole) := by decide +kernel
  have second : whole.register orders = .ok (.added shared) := by decide +kernel
  have distinct : lines.fullNames.Nodup ∧ orders.fullNames.Nodup := by decide
  have fresh : (empty "core").TakesWhole lines := Or.inr (by decide)
  have dropped : ¬ whole.TakesWhole orders := by
    unfold TakesWhole
    decide
  exact ⟨distinct.1, distinct.2, first, second, (register_again "core" [] distinct.1 first).1 fresh,
    (register_again "core" [lines] distinct.2 second).2 dropped⟩

/-- A file has lost a type to an earlier one by the time it comes again, so it is not recognised. -/
theorem unrecognised_again :
    let line : Message := ⟨"Line", "shop.Line", [], []⟩
    let order : Message := ⟨"Order", "shop.Order", [], []⟩
    let lines : SchemaFile := ⟨.named "lines", none, "shop", [], [], [line], []⟩
    let orders : SchemaFile := ⟨.named "orders", none, "shop", [], [], [line, order], []⟩
    let table := (empty "core").offeredAll [lines]
    let after := table.offered orders
    (∀ file ∈ [lines, orders], file.fullNames.Nodup) ∧ table.register orders = .ok (.added after) ∧
      after.register orders ≠ .ok .skipped ∧ (after.offered orders).files.length = after.files.length + 1 := by
  decide +kernel

end SymbolTable

end SchemaMarshal
