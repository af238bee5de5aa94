import SchemaMarshal.Proofs.Insertion

/-! The schema of well-known kinds as it is registered: seven messages without settings.

Under default options every gathering goes on from the table of this one file.
-/

set_option autoImplicit false

namespace SchemaMarshal

/-- Loading a text, from its letters. Evaluation then does not have to decode the bytes of a literal. -/
theorem Source.load_ofList {tree : FileTree} {roots : List String} {identifier : Identifier} {letters : List Char}
    {file : SchemaFile}
    (parsed : ((Cursor.mk .start letters).tokens.toOption.bind fun tokens =>
      (SchemaFile.ofTokens identifier tokens).toOption) = some file)
    (valid : file.validate = .ok ()) : (Source.text identifier (String.ofList letters)).load tree roots = .ok file := by
  obtain ⟨tokens, read, accepted⟩ := Option.bind_eq_some_iff.mp parsed
  rw [toOption_eq_some_iff] at read accepted
  refine Source.load_eq_ok_iff.mpr ⟨mapError_eq_ok_iff.mpr ?_, valid⟩
  simp only [SchemaFile.parse, tokenize, Cursor.ofText, String.toList_ofList, read, accepted]

namespace WellKnown

def message (name : String) (fields : List Field) : Message := ⟨name, qualify package name, fields, []⟩

def wrapper (name : String) (scalar : Scalar) : Message :=
  message name [⟨"value", scalar.keyword, 1, .optional⟩]

def file : SchemaFile where
  identifier := .named name
  syntaxVersion := some "proto2"
  package := package
  imports := []
  settings := []
  messages :=
    [wrapper "StringValue" .string, wrapper "IntValue" .int32, wrapper "LongValue" .int64,
     wrapper "DoubleValue" .double, wrapper "FloatValue" .float, wrapper "BoolValue" .bool,
     message "Serializable" [⟨"clazz", "string", 1, .optional⟩, ⟨"value", "string", 2, .optional⟩]]
  enumerations := []

/-- The simple names that are taken before any source is read. -/
def names : List String := file.symbols.map Symbol.name

set_option maxRecDepth 4000 in
theorem load_text (tree : FileTree) (roots : List String) :
    (Source.text (.named name) text).load tree roots = .ok file := by
  unfold text
  exact Source.load_ofList (by decide +kernel) (by decide +kernel)

theorem settings_of_mem {symbol : Symbol} (listed : symbol ∈ file.symbols) : symbol.settings = [] := by
  have all : ∀ symbol ∈ file.symbols, symbol.settings = [] := by decide
  exact all symbol listed

end WellKnown

namespace SymbolTable

theorem register_empty (reservedPackage : String) (file : SchemaFile) :
    (empty reservedPackage).register file = .ok (.added ((empty reservedPackage).append file)) := by
  have unknown : ∀ name, (empty reservedPackage).get? name = none := fun _ => rfl
  have fresh : ∀ symbol ∈ file.symbols, decide ((empty reservedPackage).standing symbol = .fresh) = true :=
    fun symbol _ => decide_eq_true (standing_eq_fresh_iff.mpr (unknown symbol.fullName))
  have harmless : file.symbols.findSome? ((empty reservedPackage).conflict? file.identifier) = none :=
    List.findSome?_eq_none_iff.mpr fun symbol _ => harmless_iff.mpr (Or.inl (unknown symbol.fullName))
  rw [register_of_harmless List.not_mem_nil harmless, SchemaFile.restrict_eq_self fresh]

def wellKnown : SymbolTable := (empty WellKnown.package).append WellKnown.file

theorem gather_default (tree : FileTree) (sources : List Source) :
    gather {} tree sources = sources.foldlM (gatherSource {} tree) wellKnown := by
  have first : gatherSource {} tree (empty WellKnown.package) (.text (.named WellKnown.name) WellKnown.text) =
      .ok wellKnown :=
    gatherSource_eq_ok_iff.mpr ⟨WellKnown.file, _, WellKnown.load_text tree [], register_empty _ _, rfl⟩
  rw [gather, allSources, List.foldlM_cons]
  simp only [first]
  rfl

theorem gather_single {tree : FileTree} {source : Source} {file : SchemaFile} {registration : Registration}
    (loaded : source.load tree [] = .ok file) (registered : wellKnown.register file = .ok registration) :
    gather {} tree [source] = .ok (registration.tableFrom wellKnown) := by
  rw [gather_default]
  exact foldlM_cons_eq_ok_iff.mpr
    ⟨_, gatherSource_eq_ok_iff.mpr ⟨file, registration, loaded, registered, rfl⟩, rfl⟩

end SymbolTable

end SchemaMarshal
