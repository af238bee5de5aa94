import SchemaMarshal.Proofs.OutputPaths
import SchemaMarshal.Proofs.Rendering

/-! Marshallers of texts are known by their source.

A text has words and paths everywhere but in the values of its settings, and the only setting that comes
into a source is the one that overrides a package. Where each override stays on one line, every line of a
source does, and the source shows its marshaller.
-/

set_option autoImplicit false

namespace SchemaMarshal

namespace Text

/-- A literal is a list of letters, which needs no decoding. -/
theorem isLine_ofList {letters : List Char} (free : '\n' ∉ letters) : IsLine (String.ofList letters) := by
  rwa [IsLine, String.toList_ofList]

@[simp] theorem isLine_append (first second : String) : IsLine (first ++ second) ↔ IsLine first ∧ IsLine second := by
  simp [IsLine, String.toList_append]

/-- Fixed text before and after a text that stays on one line. -/
theorem isLine_between {left right : List Char} {text : String} (single : IsLine text)
    (fixed : '\n' ∉ left ++ right) : IsLine (String.ofList left ++ text ++ String.ofList right) := by
  rw [List.mem_append, not_or] at fixed
  simp only [isLine_append]
  exact ⟨⟨isLine_ofList fixed.1, single⟩, isLine_ofList fixed.2⟩

theorem isLine_of_isWordPart {text : String} (parts : ∀ c ∈ text.toList, Lexeme.isWordPart c = true) :
    IsLine text := by
  intro member
  cases parts '\n' member

theorem isLine_of_isWord {text : String} (word : Name.isWord text.toList = true) : IsLine text :=
  isLine_of_isWordPart (Name.isWordPart_of_mem word)

end Text

theorem isLine_toString (number : Int) : Text.IsLine (toString number) := by
  have digits : ∀ magnitude : Nat, Text.IsLine magnitude.repr := by
    intro magnitude member
    cases isDigit_of_mem_repr member
  rw [Int.toString_eq_repr]
  cases number with
  | ofNat magnitude => exact digits magnitude
  | negSucc magnitude => exact (Text.isLine_append _ _).mpr ⟨Text.isLine_ofList (by decide), digits _⟩

namespace Accessor

/-- An accessor with a class, if it has one, that stays on one line. -/
structure Legible (accessor : Accessor) : Prop extends accessor.Named where
  classes : ∀ className, accessor.access = .collection className ∨ accessor.access = .object className →
    Text.IsLine className

theorem Named.isWordPart_getter {accessor : Accessor} (named : accessor.Named) :
    ∀ c ∈ accessor.getter.toList, Lexeme.isWordPart c = true := by
  have capitalized := Text.isWordPart_of_mem_capitalize named.word
  rw [named.getter, Access.getter]
  split
  · rw [Naming.booleanGetter, String.toList_append, List.forall_mem_append]
    exact ⟨List.all_eq_true.mp (by decide), capitalized⟩
  · rw [Naming.getter, String.toList_append, List.forall_mem_append]
    exact ⟨List.all_eq_true.mp (by decide), capitalized⟩

end Accessor

namespace Java

theorem isLine_header {package : String} {imports : List String} (packageLine : Text.IsLine package)
    (importLines : ∀ imported ∈ imports, Text.IsLine imported) :
    ∀ line ∈ header package imports, Text.IsLine line := by
  intro line listed
  simp only [header, List.mem_append, List.mem_cons, List.mem_map] at listed
  rcases listed with ((rfl | packageListed) | rfl | ⟨imported, member, rfl⟩) | closing
  · exact Text.isLine_ofList (by decide)
  · split at packageListed
    · cases packageListed
    · rw [List.mem_singleton.mp packageListed]
      exact Text.isLine_between packageLine (by decide)
  · exact Text.isLine_ofList (by decide)
  · exact Text.isLine_between (importLines imported member) (by decide)
  · split at closing
    · cases closing
    · rw [List.mem_singleton.mp closing]
      exact Text.isLine_ofList (by decide)

theorem isLine_method {signature : String} {body : List String} (signatureLine : Text.IsLine signature)
    (bodyLines : ∀ line ∈ body, Text.IsLine line) : ∀ line ∈ method signature body, Text.IsLine line := by
  intro line listed
  simp only [method, List.mem_append, List.mem_cons, List.not_mem_nil, or_false] at listed
  rcases listed with (rfl | rfl | member) | rfl
  · exact Text.isLine_ofList (by decide)
  · exact Text.isLine_between signatureLine (by decide)
  · exact bodyLines line member
  · exact Text.isLine_ofList (by decide)

theorem isLine_unit {package name contract target : String} {imports : List String} {methods : List (List String)}
    (packageLine : Text.IsLine package) (importLines : ∀ imported ∈ imports, Text.IsLine imported)
    (nameLine : Text.IsLine name) (contractLine : Text.IsLine contract) (targetLine : Text.IsLine target)
    (methodLines : ∀ lines ∈ methods, ∀ line ∈ lines, Text.IsLine line) :
    ∀ line ∈ unit package imports name contract target methods, Text.IsLine line := by
  intro line listed
  simp only [unit, List.mem_append, List.mem_cons, List.mem_flatMap, List.not_mem_nil, or_false] at listed
  rcases listed with (inHeader | rfl | ⟨lines, member, rfl | inMethod⟩) | rfl
  · exact isLine_header packageLine importLines line inHeader
  · simp only [Text.isLine_append, nameLine, contractLine, targetLine, and_true]
    and_intros <;> exact Text.isLine_ofList (by decide)
  · exact Text.isLine_ofList (by decide)
  · exact methodLines lines member line inMethod
  · exact Text.isLine_ofList (by decide)

theorem isLine_getJavaClass {target : String} (targetLine : Text.IsLine target) :
    ∀ line ∈ getJavaClass target, Text.IsLine line :=
  isLine_method (Text.isLine_between targetLine (by decide))
    (List.forall_mem_singleton.mpr (Text.isLine_between targetLine (by decide)))

theorem isLine_getTypeName {typeName : String} (typeLine : Text.IsLine typeName) :
    ∀ line ∈ getTypeName typeName, Text.IsLine line :=
  isLine_method (Text.isLine_ofList (by decide))
    (List.forall_mem_singleton.mpr (Text.isLine_between typeLine (by decide)))

theorem isLine_construct {target : String} (targetLine : Text.IsLine target) :
    Text.IsLine (statement (.construct target)) := by
  unfold statement instanceName
  simp only [Text.isLine_append, targetLine, and_true]
  and_intros <;> exact Text.isLine_ofList (by decide)

theorem isLine_return : Text.IsLine (statement .return) := by
  unfold statement instanceName
  simp only [Text.isLine_append]
  and_intros <;> exact Text.isLine_ofList (by decide)

section

variable {accessor : Accessor} (legible : accessor.Legible)
include legible

theorem isLine_classOperand : Text.IsLine accessor.access.classOperand := by
  have literal : ∀ className, Text.IsLine className → Text.IsLine (", " ++ (className ++ ".class")) := by
    intro className single
    simp only [Text.isLine_append]
    exact ⟨Text.isLine_ofList (by decide), single, Text.isLine_ofList (by decide)⟩
  cases access : accessor.access with
  | scalar type => exact Text.isLine_ofList (by decide)
  | collection className => exact literal className (legible.classes className (Or.inl access))
  | object className => exact literal className (legible.classes className (Or.inr access))

theorem isLine_assign : Text.IsLine (statement (.assign accessor.setter accessor.readCall)) := by
  have list : Text.IsLine accessor.access.listOperand := by
    cases accessor.access with
    | collection className =>
      exact (Text.isLine_append _ _).mpr ⟨Text.isLine_ofList (by decide), Text.isLine_ofList (by decide)⟩
    | scalar type => exact Text.isLine_ofList (by decide)
    | object className => exact Text.isLine_ofList (by decide)
  rw [statement_assign, instanceName]
  simp only [Text.isLine_append, Text.isLine_of_isWordPart legible.isWordPart_setter,
    Text.isLine_of_isWordPart (Carrier.isWordPart_name _), Text.isLine_of_isWord legible.word, list,
    isLine_classOperand legible, true_and]
  and_intros <;> exact Text.isLine_ofList (by decide)

theorem isLine_write : Text.IsLine (statement (.write accessor.writeCall)) := by
  rw [statement_write, instanceName]
  simp only [Text.isLine_append, Text.isLine_of_isWordPart legible.isWordPart_getter,
    Text.isLine_of_isWordPart (Carrier.isWordPart_name _), Text.isLine_of_isWord legible.word,
    isLine_classOperand legible, true_and]
  and_intros <;> exact Text.isLine_ofList (by decide)

end

end Java

/-- A marshaller with names that are words and with other texts that stay on one line each. -/
structure Marshaller.Legible (marshaller : Marshaller) : Prop where
  package : Text.IsLine marshaller.package
  name : ∀ c ∈ marshaller.name.toList, Lexeme.isWordPart c = true
  targetClass : Text.IsLine marshaller.targetClass
  typeName : Text.IsLine marshaller.typeName
  fields : ∀ message, marshaller = .message message → ∀ field ∈ message.fields, field.Legible
  values : ∀ enumeration, marshaller = .enumeration enumeration →
    ∀ value ∈ enumeration.values, Name.isWord value.name.toList = true

namespace Java

theorem isLine_imported {runtimePackage contract : String} (runtime : Text.IsLine runtimePackage)
    (single : Text.IsLine contract) : Text.IsLine (runtimePackage ++ "." ++ contract) := by
  simp only [Text.isLine_append]
  exact ⟨⟨runtime, Text.isLine_ofList (by decide)⟩, single⟩

theorem isLine_messageImports {conventions : Conventions} (runtime : Text.IsLine conventions.runtimePackage)
    (marshaller : MessageMarshaller) : ∀ imported ∈ messageImports conventions marshaller, Text.IsLine imported := by
  intro imported listed
  simp only [messageImports, List.mem_append, List.mem_cons, List.map_cons, List.map_nil, List.not_mem_nil,
    or_false] at listed
  rcases listed with (rfl | list) | rfl | rfl | rfl
  · exact Text.isLine_ofList (by decide)
  · split at list
    · rw [List.mem_singleton.mp list]
      exact Text.isLine_ofList (by decide)
    · cases list
  all_goals exact isLine_imported runtime (Text.isLine_ofList (by decide))

theorem isLine_caseLines {targetClass : String} (targetLine : Text.IsLine targetClass) {value : EnumValue}
    (nameLine : Text.IsLine value.name) : ∀ line ∈ caseLines targetClass value, Text.IsLine line := by
  simp only [caseLines, decodeBranch, List.forall_mem_cons, List.not_mem_nil, false_implies, implies_true,
    Text.isLine_append, isLine_toString, targetLine, nameLine, and_true]
  and_intros <;> exact Text.isLine_ofList (by decide)

theorem isLine_invalidValue : Text.IsLine invalidValue := Text.isLine_ofList (by decide)

theorem isLine_encodeGuard (branch : EncodeBranch) : ∀ line ∈ encodeGuard branch, Text.IsLine line := by
  cases branch with
  | rejectAbsent =>
    simp only [encodeGuard, List.forall_mem_cons, List.not_mem_nil, false_implies, implies_true, Text.isLine_append,
      isLine_invalidValue, and_true]
    and_intros <;> exact Text.isLine_ofList (by decide)
  | case value ordinal => exact List.forall_mem_nil _

theorem isLine_encodeCase {branch : EncodeBranch}
    (nameLine : ∀ value ordinal, branch = .case value ordinal → Text.IsLine value) :
    ∀ line ∈ encodeCase branch, Text.IsLine line := by
  cases branch with
  | rejectAbsent => exact List.forall_mem_nil _
  | case value ordinal =>
    simp only [encodeCase, List.forall_mem_cons, List.not_mem_nil, false_implies, implies_true, Text.isLine_append,
      isLine_toString, nameLine value ordinal rfl, and_true]
    and_intros <;> exact Text.isLine_ofList (by decide)

theorem isLine_messageUnit {conventions : Conventions} {marshaller : MessageMarshaller}
    (runtime : Text.IsLine conventions.runtimePackage) (legible : (Marshaller.message marshaller).Legible) :
    ∀ line ∈ messageUnit conventions marshaller, Text.IsLine line := by
  have fields := legible.fields marshaller rfl
  have target : Text.IsLine marshaller.targetClass := legible.targetClass
  have reading : ∀ line ∈ marshaller.readStatements.map statement, Text.IsLine line := by
    simp only [MessageMarshaller.readStatements, List.forall_mem_map, List.forall_mem_append, List.forall_mem_cons]
    exact ⟨⟨isLine_construct target, fun field member => isLine_assign (fields field member)⟩,
      isLine_return, List.forall_mem_nil _⟩
  have writing : ∀ line ∈ marshaller.writeStatements.map statement, Text.IsLine line := by
    simp only [MessageMarshaller.writeStatements, List.forall_mem_map]
    exact fun field member => isLine_write (fields field member)
  refine isLine_unit legible.package (isLine_messageImports runtime marshaller) (Text.isLine_of_isWordPart legible.name)
    (Text.isLine_ofList (by decide)) target ?_
  simp only [MessageMarshaller.members, List.map_cons, List.map_nil, messageMember, List.forall_mem_cons]
  refine ⟨isLine_getJavaClass target, isLine_getTypeName legible.typeName, isLine_method ?_ reading,
    isLine_method ?_ writing, List.forall_mem_nil _⟩
  · exact (Text.isLine_append _ _).mpr ⟨target, Text.isLine_ofList (by decide)⟩
  · simp only [Text.isLine_append, instanceName, target, and_true]
    and_intros <;> exact Text.isLine_ofList (by decide)

theorem isLine_enumUnit {conventions : Conventions} {marshaller : EnumMarshaller}
    (runtime : Text.IsLine conventions.runtimePackage) (legible : (Marshaller.enumeration marshaller).Legible) :
    ∀ line ∈ enumUnit conventions marshaller, Text.IsLine line := by
  have values : ∀ value ∈ marshaller.values, Text.IsLine value.name :=
    fun value member => Text.isLine_of_isWord (legible.values marshaller rfl value member)
  have target : Text.IsLine marshaller.targetClass := legible.targetClass
  have decoding : ∀ line ∈ decodeBody marshaller, Text.IsLine line := by
    simp only [decodeBody_eq, List.forall_mem_cons, List.forall_mem_append]
    refine ⟨Text.isLine_ofList (by decide), fun line listed => ?_, ?_, Text.isLine_ofList (by decide),
      List.forall_mem_nil _⟩
    · obtain ⟨value, member, inCase⟩ := List.mem_flatMap.mp listed
      exact isLine_caseLines target (values value member) line inCase
    · simp only [decodeBranch, List.forall_mem_cons, Text.isLine_append, isLine_invalidValue, and_true]
      exact ⟨Text.isLine_ofList (by decide), Text.isLine_ofList (by decide), List.forall_mem_nil _⟩
  have encoding : ∀ line ∈ encodeBody marshaller, Text.IsLine line := by
    intro line listed
    simp only [encodeBody, List.mem_append, List.mem_cons, List.mem_flatMap, List.not_mem_nil, or_false] at listed
    rcases listed with (⟨branch, -, inGuard⟩ | rfl | ⟨branch, member, inCase⟩) | rfl | rfl | rfl
    · exact isLine_encodeGuard branch line inGuard
    · exact Text.isLine_ofList (by decide)
    · refine isLine_encodeCase (fun value ordinal same => ?_) line inCase
      subst same
      simp only [EnumMarshaller.encodeBranches, List.mem_cons, reduceCtorEq, List.mem_map, false_or] at member
      obtain ⟨origin, listed, same⟩ := member
      obtain ⟨rfl, -⟩ := EncodeBranch.case.inj same
      exact values origin listed
    · exact Text.isLine_ofList (by decide)
    · exact (Text.isLine_append _ _).mpr ⟨Text.isLine_ofList (by decide), isLine_invalidValue⟩
    · exact Text.isLine_ofList (by decide)
  refine isLine_unit legible.package ?_ (Text.isLine_of_isWordPart legible.name) (Text.isLine_ofList (by decide)) target ?_
  · rw [List.forall_mem_singleton]
    exact (Text.isLine_append _ _).mpr ⟨runtime, Text.isLine_ofList (by decide)⟩
  · simp only [EnumMarshaller.members, List.map_cons, List.map_nil, enumMember, List.forall_mem_cons]
    refine ⟨isLine_method ?_ decoding, isLine_method ?_ encoding, isLine_getJavaClass target,
      isLine_getTypeName legible.typeName, List.forall_mem_nil _⟩
    · exact (Text.isLine_append _ _).mpr ⟨target, Text.isLine_ofList (by decide)⟩
    · exact Text.isLine_between target (by decide)

theorem isLine_lines {conventions : Conventions} {marshaller : Marshaller}
    (runtime : Text.IsLine conventions.runtimePackage) (legible : marshaller.Legible) :
    ∀ line ∈ lines conventions marshaller, Text.IsLine line := by
  cases marshaller with
  | message marshaller => exact isLine_messageUnit runtime legible
  | enumeration marshaller => exact isLine_enumUnit runtime legible

theorem lines_inj {conventions : Conventions} {first second : Marshaller} (legible : first.Legible)
    (otherLegible : second.Legible) (same : lines conventions first = lines conventions second) : first = second := by
  cases first with
  | message first =>
    cases second with
    | message second =>
      rw [messageUnit_inj legible.name otherLegible.name
        (fun field member => (legible.fields first rfl field member).toNamed)
        (fun field member => (otherLegible.fields second rfl field member).toNamed) same]
    | enumeration second => exact absurd same (messageUnit_ne_enumUnit conventions first second)
  | enumeration first =>
    cases second with
    | message second => exact absurd same.symm (messageUnit_ne_enumUnit conventions second first)
    | enumeration second => rw [enumUnit_inj legible.name otherLegible.name same]

theorem render_inj_of_legible {conventions : Conventions} (runtime : Text.IsLine conventions.runtimePackage)
    {first second : Marshaller} (legible : first.Legible) (otherLegible : second.Legible)
    (same : render conventions first = render conventions second) : first = second :=
  lines_inj legible otherLegible
    (Text.join_lines_inj (isLine_lines runtime legible) (isLine_lines runtime otherLegible) same)

end Java

def Setting.SingleLine (name : String) (settings : List Setting) : Prop :=
  ∀ setting ∈ settings, setting.name = name → Text.IsLine setting.value

instance (name : String) : DecidablePred (Setting.SingleLine name) := fun settings =>
  inferInstanceAs (Decidable (∀ setting ∈ settings, setting.name = name → ¬ '\n' ∈ setting.value.toList))

def SchemaFile.SingleLine (packageOption : String) (file : SchemaFile) : Prop :=
  Setting.SingleLine packageOption file.settings ∧
    ∀ symbol ∈ file.symbols, Setting.SingleLine packageOption symbol.settings

instance (packageOption : String) : DecidablePred (SchemaFile.SingleLine packageOption) :=
  fun _ => inferInstanceAs (Decidable (_ ∧ _))

theorem SchemaFile.SingleLine.restrict {packageOption : String} {file : SchemaFile}
    (single : file.SingleLine packageOption) (keep : Symbol → Bool) : (file.restrict keep).SingleLine packageOption := by
  refine ⟨single.1, fun symbol listed => ?_⟩
  rw [symbols_restrict] at listed
  exact single.2 symbol (List.mem_filter.mp listed).1

theorem isLine_of_find? {name value : String} {settings : List Setting} (single : Setting.SingleLine name settings)
    (found : Setting.find? settings name = some value) : Text.IsLine value := by
  obtain ⟨setting, first, rfl⟩ := Option.map_eq_some_iff.mp found
  exact single setting (List.mem_of_find?_eq_some first) (by simpa using List.find?_some first)

theorem isLine_qualify {package name : String} (packageLine : Text.IsLine package) (nameLine : Text.IsLine name) :
    Text.IsLine (qualify package name) := by
  unfold qualify
  split
  · exact nameLine
  · simp only [Text.isLine_append]
    exact ⟨⟨packageLine, Text.isLine_ofList (by decide)⟩, nameLine⟩

theorem isLine_targetClass {packageOption name : String} {file : SchemaFile} {settings : List Setting}
    (packageLine : Text.IsLine file.package) (outer : Setting.SingleLine packageOption file.settings)
    (own : Setting.SingleLine packageOption settings) (nameLine : Text.IsLine name) :
    Text.IsLine (targetClass packageOption file settings name) := by
  refine isLine_qualify ?_ nameLine
  unfold packageOf
  split
  · rename_i package found
    exact isLine_of_find? own found
  · cases found : file.setting? packageOption with
    | none => exact packageLine
    | some package => exact isLine_of_find? outer found

theorem Scalar.isLine_boxedClass (type : Scalar) : Text.IsLine type.boxedClass := by
  cases type <;> exact Text.isLine_ofList (by decide)

theorem of_reference? {usage file : SchemaFile} {raw : String} {declarations : List (SchemaFile × Symbol)}
    {symbol : Symbol} (found : reference? usage raw declarations = some (file, symbol)) :
    (∃ declaring, (declaring, symbol) ∈ declarations) ∧ (file = usage ∨ (file, symbol) ∈ declarations) := by
  rw [reference?, Option.or_eq_some_iff] at found
  rcases found with simple | ⟨-, full⟩
  · obtain ⟨⟨declaring, declared⟩, first, same⟩ := Option.map_eq_some_iff.mp simple
    cases same
    rw [Option.or_eq_some_iff] at first
    rcases first with message | ⟨-, enumeration⟩
    · exact ⟨⟨declaring, (of_simple?_eq_some message).1⟩, Or.inl rfl⟩
    · exact ⟨⟨declaring, (of_simple?_eq_some enumeration).1⟩, Or.inl rfl⟩
  · have member := List.mem_of_find?_eq_some full
    exact ⟨⟨file, member⟩, Or.inr member⟩

/-- A table of well-formed files in which every override of a package stays on one line. -/
structure SymbolTable.Legible (packageOption : String) (table : SymbolTable) : Prop where
  wellFormed : ∀ file ∈ table.files, file.WellFormed
  single : ∀ file ∈ table.files, file.SingleLine packageOption

section

variable {table : SymbolTable} {packageOption : String} (legible : table.Legible packageOption)
include legible

theorem SymbolTable.Legible.package {file : SchemaFile} (listed : file ∈ table.files) : Text.IsLine file.package := by
  rcases (legible.wellFormed file listed).package with empty | reference
  · rw [empty]
    exact Text.isLine_ofList (by decide)
  · exact Name.not_mem_reference reference (by decide) (by decide)

theorem SymbolTable.Legible.targetClass {usage : SchemaFile} (listed : usage ∈ table.files) {symbol : Symbol}
    (registered : symbol ∈ table.symbols) :
    Text.IsLine (targetClass packageOption usage symbol.settings symbol.name) := by
  obtain ⟨file, declaring, declared⟩ := SymbolTable.mem_symbols_iff.mp registered
  exact isLine_targetClass (legible.package listed) (legible.single usage listed).1
    ((legible.single file declaring).2 symbol declared)
    (Text.isLine_of_isWord ((legible.wellFormed file declaring).word declared).2)

theorem SymbolTable.Legible.resolved {usage : SchemaFile} (listed : usage ∈ table.files) {raw className : String}
    (resolved : resolve table packageOption usage raw = .resolved className) : Text.IsLine className := by
  rw [resolve_eq] at resolved
  split at resolved
  · cases resolved
  · split at resolved
    · rename_i file symbol found
      cases resolved
      obtain ⟨⟨declaring, declared⟩, origin⟩ := of_reference? found
      have listedToo : file ∈ table.files := by
        rcases origin with rfl | own
        · exact listed
        · exact (SymbolTable.mem_declarations_iff.mp own).1
      exact legible.targetClass listedToo (SymbolTable.mem_symbols_iff_declaration.mpr ⟨declaring, declared⟩)
    · cases resolved

theorem SymbolTable.Legible.accessor {usage : SchemaFile} (listed : usage ∈ table.files) {message : Message}
    {field : Field} (word : Name.isWord field.name.toList = true) {accessor : Accessor}
    (classified : classify table packageOption usage message field = .ok accessor) : accessor.Legible := by
  refine ⟨named_of_classify word classified, fun className refers => ?_⟩
  unfold classify at classified
  split at classified
  · rename_i access found
    cases classified
    cases resolution : resolve table packageOption usage field.typeName with
    | scalar type =>
      rw [resolution, Resolution.access?, Option.some.injEq] at found
      subst found
      split at refers
      · rcases refers with same | same
        · cases same
          exact type.isLine_boxedClass
        · cases same
      · rcases refers with same | same <;> cases same
    | resolved target =>
      have same : className = target := by
        rw [resolution, Resolution.access?, Option.some.injEq] at found
        subst found
        split at refers <;> simpa [eq_comm] using refers
      rw [same]
      exact legible.resolved listed resolution
    | unresolved =>
      rw [resolution] at found
      cases found
  · cases classified

end

/-- The suffixes are parts of words, and the package of the contracts stays on one line. -/
structure Conventions.Legible (conventions : Conventions) : Prop where
  runtimePackage : Text.IsLine conventions.runtimePackage
  messageSuffix : ∀ c ∈ conventions.messageSuffix.toList, Lexeme.isWordPart c = true
  enumSuffix : ∀ c ∈ conventions.enumSuffix.toList, Lexeme.isWordPart c = true

theorem legible_of_mem {table : SymbolTable} {conventions : Conventions} (plain : conventions.Legible)
    (legible : table.Legible conventions.packageOption) {marshaller : Marshaller}
    (member : marshaller ∈ (generate table conventions).marshallers) : marshaller.Legible := by
  have made := member
  rw [marshallers_eq] at made
  obtain ⟨⟨file, symbol⟩, user, selected⟩ := List.mem_filterMap.mp made
  rw [Outcome.marshaller?_eq_some_iff] at selected
  obtain ⟨isUser, declared⟩ := mem_userDeclarations_iff.mp user
  have listed : file ∈ table.files := (List.mem_filter.mp isUser).1
  obtain ⟨package, suffix, known, called⟩ := place_of_outcome selected
  obtain ⟨fullName, word⟩ := (legible.wellFormed file listed).word declared
  have typeName : symbol.fullName = marshaller.typeName := fullName_of_outcome selected
  refine ⟨?_, ?_, ?_, ?_, ?_, ?_⟩
  · rw [package]
    exact legible.package listed
  · rw [called, String.toList_append, List.forall_mem_append]
    refine ⟨Name.isWordPart_of_mem word, ?_⟩
    rcases List.mem_pair.mp known with rfl | rfl
    · exact plain.messageSuffix
    · exact plain.enumSuffix
  · rw [targetClass_of_outcome selected]
    exact legible.targetClass listed (SymbolTable.mem_symbols_iff.mpr ⟨file, listed, declared⟩)
  · rw [← typeName, fullName]
    exact isLine_qualify (legible.package listed) (Text.isLine_of_isWord word)
  · rintro message rfl accessor carried
    obtain ⟨origin, user, declaration, declared, made⟩ := messageMarshaller_of_mem member
    have known : origin ∈ table.files := (List.mem_filter.mp user).1
    obtain ⟨field, listed, classified⟩ := exists_left_of_forall₂ (messageMarshaller_eq_ok made).2.2 carried
    exact legible.accessor known
      (((legible.wellFormed origin known).messages declaration declared).fields field listed).name classified
  · rintro enumeration rfl value listed
    obtain ⟨origin, user, declaration, declared, rfl⟩ := enumMarshaller_of_mem member
    have known : origin ∈ table.files := (List.mem_filter.mp user).1
    exact (((legible.wellFormed origin known).enumerations declaration declared).values value listed).name

/-- A table gathered from texts in which every override of a package stays on one line. -/
structure TextRun (conventions : Conventions) where
  options : GatherOptions
  tree : FileTree
  sources : List Source
  table : SymbolTable
  texts : ∀ source ∈ sources, source.IsText
  gathered : SymbolTable.gather options tree sources = .ok table
  single : ∀ source ∈ SymbolTable.allSources options sources, ∀ file,
    source.load tree options.resourceRoots = .ok file → file.SingleLine conventions.packageOption

namespace TextRun

variable {conventions : Conventions}

def report (run : TextRun conventions) : Report := generate run.table conventions

theorem legible (run : TextRun conventions) : run.table.Legible conventions.packageOption := by
  refine ⟨fun file listed => SymbolTable.wellFormed_of_gather run.texts run.gathered listed, fun file listed => ?_⟩
  obtain ⟨source, given, loaded, keep, load, rfl⟩ := SymbolTable.origin_of_gather run.gathered listed
  exact (run.single source given loaded load).restrict keep

/-- The run over one text under default options. The well-known kinds override no package. -/
def ofText {tree : FileTree} {source : Source} {file : SchemaFile} {registration : SymbolTable.Registration}
    (isText : source.IsText) (loaded : source.load tree [] = .ok file)
    (registered : SymbolTable.wellKnown.register file = .ok registration)
    (single : file.SingleLine conventions.packageOption) : TextRun conventions where
  options := {}
  tree := tree
  sources := [source]
  table := registration.tableFrom SymbolTable.wellKnown
  texts := by simpa using isText
  gathered := SymbolTable.gather_single loaded registered
  single := by
    intro given member other load
    rcases List.mem_pair.mp member with rfl | rfl
    · obtain rfl : WellKnown.file = other := Except.ok.inj ((WellKnown.load_text tree []).symm.trans load)
      refine ⟨List.forall_mem_nil _, fun symbol listed => ?_⟩
      rw [WellKnown.settings_of_mem listed]
      exact List.forall_mem_nil _
    · obtain rfl : file = other := Except.ok.inj (loaded.symm.trans load)
      exact single

end TextRun

/-- Rendering loses nothing: marshallers of two runs over texts that have the same source are the same. -/
theorem Java.render_injective {conventions : Conventions} (plain : conventions.Legible)
    (run other : TextRun conventions) {first second : Marshaller} (made : first ∈ run.report.marshallers)
    (otherMade : second ∈ other.report.marshallers)
    (same : Java.render conventions first = Java.render conventions second) : first = second :=
  Java.render_inj_of_legible plain.runtimePackage (legible_of_mem plain run.legible made)
    (legible_of_mem plain other.legible otherMade) same

/-- One text overrides the package of a file and the other that of its only type. -/
theorem Java.render_injective_overridden :
    ({} : Conventions).Legible ∧ ∃ run other : TextRun {}, run.sources ≠ other.sources ∧
      run.report.marshallers ≠ [] ∧
      run.report.marshallers.map (Java.render {}) = other.report.marshallers.map (Java.render {}) ∧
      run.report.marshallers = other.report.marshallers := by
  let tree : FileTree := ⟨.directory .empty, []⟩
  let source : Source := .text (.named "a")
    "package p; option java_package = \"q\"; message M \x7b repeated M m = 1; \x7d"
  let otherSource : Source := .text (.named "a")
    "package p; message M \x7b option java_package = \"q\"; repeated M m = 1; \x7d"
  let override : Setting := ⟨"java_package", "q"⟩
  let field : Field := ⟨"m", "M", 1, .repeated⟩
  let file : SchemaFile := ⟨.named "a", none, "p", [], [override], [⟨"M", "p.M", [field], []⟩], []⟩
  let otherFile : SchemaFile := ⟨.named "a", none, "p", [], [], [⟨"M", "p.M", [field], [override]⟩], []⟩
  have loaded : source.load tree [] = .ok file := Source.load_ofList (by decide +kernel) (by decide +kernel)
  have otherLoaded : otherSource.load tree [] = .ok otherFile :=
    Source.load_ofList (by decide +kernel) (by decide +kernel)
  have registered : SymbolTable.wellKnown.register file = .ok (.added (SymbolTable.wellKnown.append file)) := by
    decide +kernel
  have otherRegistered :
      SymbolTable.wellKnown.register otherFile = .ok (.added (SymbolTable.wellKnown.append otherFile)) := by
    decide +kernel
  let run : TextRun {} := .ofText (Source.isText_text _ _) loaded registered (by decide +kernel)
  let other : TextRun {} := .ofText (Source.isText_text _ _) otherLoaded otherRegistered (by decide +kernel)
  have plain : ({} : Conventions).Legible :=
    ⟨Text.isLine_ofList (by decide), List.all_eq_true.mp (by decide), List.all_eq_true.mp (by decide)⟩
  have differ : [source] ≠ [otherSource] := by simp [source, otherSource]
  have some : (generate (SymbolTable.wellKnown.append file) {}).marshallers ≠ [] := by decide +kernel
  have same : (generate (SymbolTable.wellKnown.append file) {}).marshallers.map (Java.render {}) =
      (generate (SymbolTable.wellKnown.append otherFile) {}).marshallers.map (Java.render {}) :=
    congrArg (List.map (Java.render {})) (by decide +kernel)
  refine ⟨plain, run, other, differ, some, same, map_inj_on ?_ same⟩
  exact fun first made second otherMade => Java.render_injective plain run other made otherMade

end SchemaMarshal
