import Mathlib.Data.List.Find
import SchemaMarshal.Marshaller.Resolution
import SchemaMarshal.Proofs.Declarations

/-! What a name in a field stands for, as a search through the declarations of a table.

Only declarations count, not the files around them. Later declarations do not take a reference from
an earlier one, except that a message takes it from an enumeration of the same simple name. Where no
simple name and no full name is declared twice, the order of declarations has no say.
-/

set_option autoImplicit false

namespace SchemaMarshal

def Symbol.kind : Symbol → Kind
  | .message _ => .message
  | .enumeration _ => .enumeration

def simple? (kind : Symbol.Kind) (raw : String) (declarations : List (SchemaFile × Symbol)) :
    Option (SchemaFile × Symbol) :=
  declarations.find? fun declaration => declaration.2.kind = kind ∧ declaration.2.name = raw

def full? (raw : String) (declarations : List (SchemaFile × Symbol)) : Option (SchemaFile × Symbol) :=
  declarations.find? fun declaration => declaration.2.fullName = withoutLeadingPoints raw

/-- The type that a name stands for, beside the file whose package its class is in. -/
def reference? (usage : SchemaFile) (raw : String) (declarations : List (SchemaFile × Symbol)) :
    Option (SchemaFile × Symbol) :=
  (((simple? .message raw declarations).or (simple? .enumeration raw declarations)).map
    fun declaration => (usage, declaration.2)).or (full? raw declarations)

theorem map_findSome?_messageNamed? (table : SymbolTable) (raw : String) :
    (table.files.findSome? (SchemaFile.messageNamed? raw)).map .message =
      (simple? .message raw table.declarations).map Prod.snd := by
  simp only [simple?, SymbolTable.declarations, List.find?_flatMap, List.map_findSome?]
  congr 1
  funext file
  have none : file.enumerations.find? (fun _ => false) = none := by simp
  simp [SchemaFile.messageNamed?, SchemaFile.declarations, SchemaFile.symbols, List.find?_map, List.find?_append,
    Function.comp_def, Symbol.kind, Symbol.name, none]

theorem map_findSome?_enumerationNamed? (table : SymbolTable) (raw : String) :
    (table.files.findSome? (SchemaFile.enumerationNamed? raw)).map .enumeration =
      (simple? .enumeration raw table.declarations).map Prod.snd := by
  simp only [simple?, SymbolTable.declarations, List.find?_flatMap, List.map_findSome?]
  congr 1
  funext file
  have none : file.messages.find? (fun _ => false) = none := by simp
  simp [SchemaFile.enumerationNamed?, SchemaFile.declarations, SchemaFile.symbols, List.find?_map,
    List.find?_append, Function.comp_def, Symbol.kind, Symbol.name, none]

theorem findSome?_declares? (table : SymbolTable) (raw : String) :
    table.files.findSome? (SchemaFile.declares? (withoutLeadingPoints raw)) = full? raw table.declarations := by
  simp only [full?, SymbolTable.declarations, List.find?_flatMap]
  congr 1
  funext file
  simp [SchemaFile.declares?, SchemaFile.declarations, List.find?_map]

/-- Resolving asks a table for its declarations only. -/
theorem resolve_eq (table : SymbolTable) (packageOption : String) (usage : SchemaFile) (raw : String) :
    resolve table packageOption usage raw =
      match Scalar.ofKeyword? raw with
      | some scalar => .scalar scalar
      | none =>
          match reference? usage raw table.declarations with
          | some (file, symbol) => .resolved (targetClass packageOption file symbol.settings symbol.name)
          | none => .unresolved := by
  have messages := map_findSome?_messageNamed? table raw
  have enumerations := map_findSome?_enumerationNamed? table raw
  unfold resolve reference?
  rw [findSome?_declares?]
  -- The three searches in their order, each through all files.
  cases Scalar.ofKeyword? raw with
  | some scalar => rfl
  | none =>
    cases found : table.files.findSome? (SchemaFile.messageNamed? raw) with
    | some message =>
      rw [found] at messages
      obtain ⟨declaration, first, same⟩ := Option.map_eq_some_iff.mp messages.symm
      simp [first, same, Symbol.settings, Symbol.name]
    | none =>
      rw [found] at messages
      have noMessage := Option.map_eq_none_iff.mp messages.symm
      cases foundEnumeration : table.files.findSome? (SchemaFile.enumerationNamed? raw) with
      | some enumeration =>
        rw [foundEnumeration] at enumerations
        obtain ⟨declaration, first, same⟩ := Option.map_eq_some_iff.mp enumerations.symm
        simp [noMessage, first, same, Symbol.settings, Symbol.name]
      | none =>
        rw [foundEnumeration] at enumerations
        have noEnumeration := Option.map_eq_none_iff.mp enumerations.symm
        cases full? raw table.declarations with
        | some declaration =>
          obtain ⟨file, symbol⟩ := declaration
          simp [noMessage, noEnumeration]
        | none => simp [noMessage, noEnumeration]

theorem resolve_congr {first second : SymbolTable} {packageOption : String} {usage : SchemaFile} {raw : String}
    (same : reference? usage raw first.declarations = reference? usage raw second.declarations) :
    resolve first packageOption usage raw = resolve second packageOption usage raw := by
  rw [resolve_eq, resolve_eq, same]

/-- The name is no scalar, no simple name of a type and no full name of one. -/
def SymbolTable.Unknown (table : SymbolTable) (raw : String) : Prop :=
  raw ∉ Scalar.all.map Scalar.keyword ∧
    ∀ symbol ∈ table.symbols, symbol.name ≠ raw ∧ symbol.fullName ≠ withoutLeadingPoints raw

instance (table : SymbolTable) : DecidablePred table.Unknown := fun raw =>
  inferInstanceAs (Decidable (raw ∉ Scalar.all.map Scalar.keyword ∧
    ∀ symbol ∈ table.symbols, symbol.name ≠ raw ∧ symbol.fullName ≠ withoutLeadingPoints raw))

theorem ofKeyword?_eq_none_iff {raw : String} :
    Scalar.ofKeyword? raw = none ↔ raw ∉ Scalar.all.map Scalar.keyword := by
  simp [Scalar.ofKeyword?]

theorem simple?_eq_none_iff {kind : Symbol.Kind} {raw : String} {declarations : List (SchemaFile × Symbol)} :
    simple? kind raw declarations = none ↔
      ∀ declaration ∈ declarations, declaration.2.kind = kind → declaration.2.name ≠ raw := by
  simp [simple?]

theorem of_simple?_eq_some {kind : Symbol.Kind} {raw : String} {declarations : List (SchemaFile × Symbol)}
    {found : SchemaFile × Symbol} (simple : simple? kind raw declarations = some found) :
    found ∈ declarations ∧ found.2.kind = kind ∧ found.2.name = raw := by
  have holds := List.find?_some simple
  simp only [decide_eq_true_eq] at holds
  exact ⟨List.mem_of_find?_eq_some simple, holds⟩

theorem full?_eq_none_iff {raw : String} {declarations : List (SchemaFile × Symbol)} :
    full? raw declarations = none ↔
      ∀ declaration ∈ declarations, declaration.2.fullName ≠ withoutLeadingPoints raw := by
  simp [full?]

/-- There are messages and enumerations and nothing else to match a simple name. -/
theorem no_simple?_iff {raw : String} {declarations : List (SchemaFile × Symbol)} :
    simple? .message raw declarations = none ∧ simple? .enumeration raw declarations = none ↔
      ∀ declaration ∈ declarations, declaration.2.name ≠ raw := by
  simp only [simple?_eq_none_iff]
  constructor
  · rintro ⟨noMessage, noEnumeration⟩ declaration member
    cases kind : declaration.2.kind with
    | message => exact noMessage declaration member kind
    | enumeration => exact noEnumeration declaration member kind
  · intro none
    exact ⟨fun declaration member _ => none declaration member, fun declaration member _ => none declaration member⟩

theorem reference?_eq_none_iff {usage : SchemaFile} {raw : String} {declarations : List (SchemaFile × Symbol)} :
    reference? usage raw declarations = none ↔
      ∀ declaration ∈ declarations,
        declaration.2.name ≠ raw ∧ declaration.2.fullName ≠ withoutLeadingPoints raw := by
  simp only [reference?, Option.or_eq_none_iff, Option.map_eq_none_iff, no_simple?_iff, full?_eq_none_iff]
  exact forall₂_and.symm

theorem resolve_eq_unresolved_iff {table : SymbolTable} {packageOption : String} {usage : SchemaFile}
    {raw : String} : resolve table packageOption usage raw = .unresolved ↔ table.Unknown raw := by
  have declared : reference? usage raw table.declarations = none ↔
      ∀ symbol ∈ table.symbols, symbol.name ≠ raw ∧ symbol.fullName ≠ withoutLeadingPoints raw := by
    rw [reference?_eq_none_iff, ← SymbolTable.map_snd_declarations, List.forall_mem_map]
  rw [resolve_eq, SymbolTable.Unknown, ← ofKeyword?_eq_none_iff, ← declared]
  cases Scalar.ofKeyword? raw with
  | some scalar => simp
  | none =>
    cases reference? usage raw table.declarations with
    | some found => simp
    | none => simp

theorem resolve_eq_resolved_iff {table : SymbolTable} {packageOption : String} {usage : SchemaFile} {raw : String}
    (notScalar : raw ∉ Scalar.all.map Scalar.keyword) :
    (∃ className, resolve table packageOption usage raw = .resolved className) ↔
      ∃ symbol ∈ table.symbols, symbol.name = raw ∨ symbol.fullName = withoutLeadingPoints raw := by
  have found : (∃ className, resolve table packageOption usage raw = .resolved className) ↔
      resolve table packageOption usage raw ≠ .unresolved := by
    rw [resolve_eq, ofKeyword?_eq_none_iff.mpr notScalar]
    cases reference? usage raw table.declarations with
    | none => simp
    | some declaration => simp
  rw [found, ne_eq, resolve_eq_unresolved_iff, SymbolTable.Unknown]
  grind

theorem withoutLeadingPoints_eq_self {name : String} (bare : name.toList.head? ≠ some '.') :
    withoutLeadingPoints name = name := by
  unfold withoutLeadingPoints
  cases letters : name.toList with
  | nil => rw [List.dropWhile_nil, ← letters, String.ofList_toList]
  | cons head tail =>
    rw [letters, List.head?_cons, ne_eq, Option.some.injEq] at bare
    rw [List.dropWhile_cons_of_neg (by simpa using bare), ← letters, String.ofList_toList]

theorem withoutLeadingPoints_point (name : String) :
    withoutLeadingPoints ("." ++ name) = withoutLeadingPoints name := by
  simp [withoutLeadingPoints]

/-- A reference is kept when declarations follow, if no message among them takes over the simple
name of an enumeration and no type of theirs has as simple name what was used as a full name. -/
theorem reference?_append {usage : SchemaFile} {raw : String} {declarations later : List (SchemaFile × Symbol)}
    {found : SchemaFile × Symbol} (resolved : reference? usage raw declarations = some found)
    (noMessage : ∀ declaration ∈ declarations, declaration.2.kind = .enumeration → declaration.2.name = raw →
      ∀ other ∈ later, other.2.kind = .message → other.2.name ≠ raw)
    (noSimple : ∀ declaration ∈ declarations, declaration.2.fullName = withoutLeadingPoints raw →
      declaration.2.name ≠ raw → ∀ other ∈ later, other.2.name ≠ raw) :
    reference? usage raw (declarations ++ later) = some found := by
  have split : ∀ kind, simple? kind raw (declarations ++ later) =
      (simple? kind raw declarations).or (simple? kind raw later) := fun _ => List.find?_append
  have splitFull : full? raw (declarations ++ later) = (full? raw declarations).or (full? raw later) :=
    List.find?_append
  rw [← resolved]
  simp only [reference?, split, splitFull]
  cases message : simple? .message raw declarations with
  | some declaration => simp
  | none =>
    cases enumeration : simple? .enumeration raw declarations with
    | some declaration =>
      obtain ⟨listed, kind, named⟩ := of_simple?_eq_some enumeration
      have absent : simple? .message raw later = none :=
        simple?_eq_none_iff.mpr (noMessage declaration listed kind named)
      simp [absent]
    | none =>
      cases full : full? raw declarations with
      | none => simp [reference?, message, enumeration, full] at resolved
      | some declaration =>
        have member := List.mem_of_find?_eq_some full
        have named : declaration.2.fullName = withoutLeadingPoints raw := by simpa using List.find?_some full
        have otherwise : declaration.2.name ≠ raw := no_simple?_iff.mp ⟨message, enumeration⟩ declaration member
        have absent : ∀ kind, simple? kind raw later = none := fun kind =>
          simple?_eq_none_iff.mpr fun other listed _ => noSimple declaration member named otherwise other listed
        simp [absent]

theorem reference?_perm {usage : SchemaFile} {raw : String} {first second : List (SchemaFile × Symbol)}
    (perm : first.Perm second) (names : (first.map fun declaration => declaration.2.name).Nodup)
    (fullNames : (first.map fun declaration => declaration.2.fullName).Nodup) :
    reference? usage raw first = reference? usage raw second := by
  have simple : ∀ kind, simple? kind raw first = simple? kind raw second := by
    intro kind
    apply List.find?_eq_find?_of_perm perm
    rintro declaration ⟨member, matched⟩ other ⟨otherMember, otherMatched⟩
    simp only [decide_eq_true_eq] at matched otherMatched
    exact List.inj_on_of_nodup_map names member otherMember (matched.2.trans otherMatched.2.symm)
  have full : full? raw first = full? raw second := by
    apply List.find?_eq_find?_of_perm perm
    rintro declaration ⟨member, matched⟩ other ⟨otherMember, otherMatched⟩
    simp only [decide_eq_true_eq] at matched otherMatched
    exact List.inj_on_of_nodup_map fullNames member otherMember (matched.trans otherMatched.symm)
  simp only [reference?, simple, full]

end SchemaMarshal
