import Mathlib.Data.List.Basic
import SchemaMarshal.Proofs.Spelling

/-! Writing a schema file as text.

A file is written as statements, a statement as parts. Each part is some text of its own, followed
by a blank, and stands for tokens that do not depend on its neighbours. `tokenize_print` says that
the text of a well-formed file has exactly the tokens of its parts.
-/

set_option autoImplicit false

namespace SchemaMarshal

inductive Part where
  | name (text : String)
  | number (value : Int)
  | literal (value : String)
  | symbol (character : Char)
  deriving DecidableEq, Repr

namespace Part

def digits (value : Int) : List Char := Nat.toDigits 10 value.natAbs

def text : Part → List Char
  | name text => text.toList
  | number value => if value < 0 then '-' :: digits value else digits value
  | literal value => '"' :: (value.toList.flatMap escape ++ ['"'])
  | symbol character => [character]

def kinds : Part → List Token.Kind
  | name text => Name.kinds text.toList
  | number value =>
      if value < 0 then [.symbol '-', .integer (String.ofList (digits value))]
      else [.integer (String.ofList (digits value))]
  | literal value => [.quoted value]
  | symbol character => [.symbol character]

/-- A line ends after a semicolon and after a brace. -/
def gap : Part → Char
  | symbol character => if character ∈ [';', '\x7b', '\x7d'] then '\n' else ' '
  | _ => ' '

def written (part : Part) : List Char := part.text ++ [part.gap]

def Valid : Part → Prop
  | name text => Name.isReference text.toList = true ∨ Name.isSettingName text.toList = true
  | symbol character => character ∈ Lexeme.symbols
  | _ => True

@[simp] theorem valid_number (value : Int) : (number value).Valid := trivial

@[simp] theorem valid_literal (value : String) : (literal value).Valid := trivial

@[simp] theorem valid_symbol_iff {character : Char} :
    (symbol character).Valid ↔ character ∈ Lexeme.symbols := Iff.rfl

theorem valid_word {text : String} (word : Name.isWord text.toList = true) : (name text).Valid :=
  Or.inl (Name.isReference_of_isWord word)

@[simp] theorem kinds_literal (value : String) : (literal value).kinds = [.quoted value] := rfl

@[simp] theorem kinds_symbol (character : Char) : (symbol character).kinds = [.symbol character] := rfl

theorem kinds_number_ne_nil (value : Int) : (number value).kinds ≠ [] := by
  rw [kinds]
  split <;> simp

theorem kinds_word {text : String} (word : Name.isWord text.toList = true) :
    (name text).kinds = [.identifier text] := by
  rw [kinds, Name.kinds_word word, String.ofList_toList]

theorem gap_eq (part : Part) : part.gap = '\n' ∨ part.gap = ' ' := by
  unfold gap
  split
  · split
    · exact Or.inl rfl
    · exact Or.inr rfl
  · exact Or.inr rfl

theorem isBlank_gap (part : Part) : Text.isBlank part.gap = true := by
  rcases part.gap_eq with same | same <;> rw [same] <;> decide

theorem breaks_gap (part : Part) (rest : List Char) : Breaks (part.gap :: rest) := by
  apply breaks_cons
  rcases part.gap_eq with same | same <;> rw [same] <;> decide

theorem gap_ne_point (part : Part) : part.gap ≠ '.' := by
  rcases part.gap_eq with same | same <;> rw [same] <;> decide

theorem spells_written {part : Part} (valid : part.Valid) {rest : List Char} {later : List Token.Kind}
    (spells : Spells rest later) : Spells (part.written ++ rest) (part.kinds ++ later) := by
  have breaks := part.breaks_gap rest
  have point : (part.gap :: rest).head? ≠ some '.' := fun same => part.gap_ne_point (Option.some.inj same)
  -- The gap ends words and numbers, so nothing runs into the part that follows.
  have after : Spells (part.gap :: rest) later := spells_blank part.isBlank_gap spells
  rw [written, List.append_assoc, List.singleton_append]
  cases part with
  | name text =>
    rcases valid with reference | settingName
    · exact Name.spelled_reference reference breaks after
    · exact Name.spelled_settingName settingName breaks after
  | number value =>
    have magnitude := spells_digits value.natAbs breaks point after
    rw [Part.text, Part.kinds]
    split
    · exact spells_symbol (by decide) magnitude
    · exact magnitude
  | literal value =>
    rw [Part.text, List.cons_append, List.append_assoc]
    exact spells_literal value after
  | symbol character => exact spells_symbol valid after

def block {α : Type} (keyword label : String) (items : List α) (parts : α → List Part) : List Part :=
  [name keyword, name label, symbol '\x7b'] ++ items.flatMap parts ++ [symbol '\x7d']

theorem valid_block {α : Type} {keyword label : String} {items : List α} {parts : α → List Part}
    (keywordWord : Name.isWord keyword.toList = true) (labelWord : Name.isWord label.toList = true)
    (valid : ∀ item ∈ items, ∀ part ∈ parts item, part.Valid) :
    ∀ part ∈ block keyword label items parts, part.Valid := by
  rw [block, List.forall_mem_append, List.forall_mem_append, List.forall_mem_flatMap]
  refine ⟨⟨?_, valid⟩, ?_⟩
  · simp [valid_word keywordWord, valid_word labelWord, Lexeme.symbols]
  · simp [Lexeme.symbols]

theorem kinds_block {α : Type} {keyword label : String} (keywordWord : Name.isWord keyword.toList = true)
    (labelWord : Name.isWord label.toList = true) (items : List α) (parts : α → List Part) :
    (block keyword label items parts).flatMap kinds =
      .identifier keyword :: .identifier label :: .symbol '\x7b' ::
        (items.flatMap (fun item => (parts item).flatMap kinds) ++ [.symbol '\x7d']) := by
  simp [block, kinds_word keywordWord, kinds_word labelWord, List.flatMap_assoc]

end Part

theorem spells_parts {parts : List Part} (valid : ∀ part ∈ parts, part.Valid) :
    Spells (parts.flatMap Part.written) (parts.flatMap Part.kinds) := by
  induction parts with
  | nil => exact spells_nil
  | cons part parts ih =>
    rw [List.flatMap_cons, List.flatMap_cons]
    have later := ih fun other member => valid other (List.mem_cons_of_mem _ member)
    exact Part.spells_written (valid part (by simp)) later

def Setting.assignment (setting : Setting) : List Part :=
  [.name setting.name, .symbol '=', .literal setting.value, .symbol ';']

def Setting.parts (setting : Setting) : List Part := .name "option" :: setting.assignment

theorem Setting.kinds_parts (setting : Setting) :
    setting.parts.flatMap Part.kinds = .identifier "option" :: setting.assignment.flatMap Part.kinds := by
  rw [parts, List.flatMap_cons, Part.kinds_word (by decide)]
  rfl

/-- The keyword of a label; an implicit label has none. -/
def Label.parts : Label → List Part
  | .implicit => []
  | label => [.name label.text]

def Field.heading (field : Field) : List Part :=
  field.label.parts ++ [.name field.typeName, .name field.name, .symbol '=', .number field.number.toNat]

def Field.parts (field : Field) : List Part := field.heading ++ [.symbol ';']

def EnumValue.heading (value : EnumValue) : List Part :=
  [.name value.name, .symbol '=', .number value.ordinal.toInt]

def EnumValue.parts (value : EnumValue) : List Part := value.heading ++ [.symbol ';']

namespace Parser

def MessageItem.parts : MessageItem → List Part
  | .empty => [.symbol ';']
  | .setting declared => declared.parts
  | .field declared => declared.parts

def EnumItem.parts : EnumItem → List Part
  | .empty => [.symbol ';']
  | .setting declared => declared.parts
  | .value declared => declared.parts

def Statement.parts : Statement → List Part
  | .empty => [.symbol ';']
  | .version text => [.name "syntax", .symbol '=', .literal text, .symbol ';']
  | .package name => [.name "package", .name name, .symbol ';']
  | .imported path => [.name "import", .literal path, .symbol ';']
  | .setting declared => declared.parts
  | .message name items => Part.block "message" name items MessageItem.parts
  | .enumeration name items => Part.block "enum" name items EnumItem.parts

end Parser

def Message.statement (message : Message) : Parser.Statement :=
  .message message.name (message.settings.map .setting ++ message.fields.map .field)

def Enumeration.statement (enumeration : Enumeration) : Parser.Statement :=
  .enumeration enumeration.name (enumeration.settings.map .setting ++ enumeration.values.map .value)

namespace SchemaFile

def statements (file : SchemaFile) : List Parser.Statement :=
  file.syntaxVersion.toList.map .version ++ (if file.package = "" then [] else [.package file.package]) ++
    file.imports.map .imported ++ file.settings.map .setting ++
    file.messages.map Message.statement ++ file.enumerations.map Enumeration.statement

def parts (file : SchemaFile) : List Part := file.statements.flatMap Parser.Statement.parts

def kinds (file : SchemaFile) : List Token.Kind := file.parts.flatMap Part.kinds

def print (file : SchemaFile) : String := String.ofList (file.parts.flatMap Part.written)

end SchemaFile

theorem Setting.WellFormed.valid {setting : Setting} (wellFormed : setting.WellFormed) :
    ∀ part ∈ setting.parts, part.Valid := by
  have keyword : (Part.name "option").Valid := Part.valid_word (by decide)
  have name : (Part.name setting.name).Valid := Or.inr wellFormed
  simp [parts, assignment, keyword, name, Lexeme.symbols]

theorem Label.valid (label : Label) : ∀ part ∈ label.parts, part.Valid := by
  have word : Name.isWord label.text.toList = true := by cases label <;> decide
  have keyword := Part.valid_word word
  cases label <;> simp [parts, keyword]

theorem Field.WellFormed.valid {field : Field} (wellFormed : field.WellFormed) :
    ∀ part ∈ field.parts, part.Valid := by
  have type : (Part.name field.typeName).Valid := Or.inl wellFormed.type
  have name := Part.valid_word wellFormed.name
  rw [parts, heading, List.forall_mem_append, List.forall_mem_append]
  refine ⟨⟨field.label.valid, ?_⟩, ?_⟩
  · simp [type, name, Lexeme.symbols]
  · simp [Lexeme.symbols]

theorem EnumValue.WellFormed.valid {value : EnumValue} (wellFormed : value.WellFormed) :
    ∀ part ∈ value.parts, part.Valid := by
  have name := Part.valid_word wellFormed.name
  simp [parts, heading, name, Lexeme.symbols]

namespace Parser

def MessageItem.WellFormed : MessageItem → Prop
  | .empty => True
  | .setting declared => declared.WellFormed
  | .field declared => declared.WellFormed

def EnumItem.WellFormed : EnumItem → Prop
  | .empty => True
  | .setting declared => declared.WellFormed
  | .value declared => declared.WellFormed

def Statement.WellFormed : Statement → Prop
  | .empty => True
  | .version _ => True
  | .package name => Name.isReference name.toList = true
  | .imported _ => True
  | .setting declared => declared.WellFormed
  | .message name items => Name.isWord name.toList = true ∧ ∀ item ∈ items, item.WellFormed
  | .enumeration name items => Name.isWord name.toList = true ∧ ∀ item ∈ items, item.WellFormed

theorem MessageItem.WellFormed.valid {item : MessageItem} (wellFormed : item.WellFormed) :
    ∀ part ∈ item.parts, part.Valid := by
  cases item with
  | empty => simp [parts, Lexeme.symbols]
  | setting declared => exact Setting.WellFormed.valid wellFormed
  | field declared => exact Field.WellFormed.valid wellFormed

theorem EnumItem.WellFormed.valid {item : EnumItem} (wellFormed : item.WellFormed) :
    ∀ part ∈ item.parts, part.Valid := by
  cases item with
  | empty => simp [parts, Lexeme.symbols]
  | setting declared => exact Setting.WellFormed.valid wellFormed
  | value declared => exact EnumValue.WellFormed.valid wellFormed

theorem Statement.WellFormed.valid {statement : Statement} (wellFormed : statement.WellFormed) :
    ∀ part ∈ statement.parts, part.Valid := by
  have syntaxWord : (Part.name "syntax").Valid := Part.valid_word (by decide)
  have packageWord : (Part.name "package").Valid := Part.valid_word (by decide)
  have importWord : (Part.name "import").Valid := Part.valid_word (by decide)
  cases statement with
  | empty => simp [parts, Lexeme.symbols]
  | version text => simp [parts, syntaxWord, Lexeme.symbols]
  | package name =>
    have reference : (Part.name name).Valid := Or.inl wellFormed
    simp [parts, packageWord, reference, Lexeme.symbols]
  | imported path => simp [parts, importWord, Lexeme.symbols]
  | setting declared => exact Setting.WellFormed.valid wellFormed
  | message name items =>
    exact Part.valid_block (by decide) wellFormed.1 fun item member => (wellFormed.2 item member).valid
  | enumeration name items =>
    exact Part.valid_block (by decide) wellFormed.1 fun item member => (wellFormed.2 item member).valid

end Parser

theorem Message.WellFormed.statement {package : String} {message : Message}
    (wellFormed : message.WellFormed package) : message.statement.WellFormed := by
  refine ⟨wellFormed.name, ?_⟩
  rw [List.forall_mem_append, List.forall_mem_map, List.forall_mem_map]
  exact ⟨wellFormed.settings, wellFormed.fields⟩

theorem Message.WellFormed.ofItems_eq {package : String} {message : Message}
    (wellFormed : message.WellFormed package) :
    Message.ofItems package message.name (message.settings.map .setting ++ message.fields.map .field) = message := by
  rw [Message.ofItems, ← wellFormed.fullName]
  simp [List.filterMap_append, List.filterMap_map]

theorem Enumeration.WellFormed.ofItems_eq {package : String} {enumeration : Enumeration}
    (wellFormed : enumeration.WellFormed package) :
    Enumeration.ofItems package enumeration.name
      (enumeration.settings.map .setting ++ enumeration.values.map .value) = enumeration := by
  rw [Enumeration.ofItems, ← wellFormed.fullName]
  simp [List.filterMap_append, List.filterMap_map]

theorem Enumeration.WellFormed.statement {package : String} {enumeration : Enumeration}
    (wellFormed : enumeration.WellFormed package) : enumeration.statement.WellFormed := by
  refine ⟨wellFormed.name, ?_⟩
  rw [List.forall_mem_append, List.forall_mem_map, List.forall_mem_map]
  exact ⟨wellFormed.settings, wellFormed.values⟩

namespace SchemaFile

theorem WellFormed.statements {file : SchemaFile} (wellFormed : file.WellFormed) :
    ∀ statement ∈ file.statements, statement.WellFormed := by
  have package : ∀ statement ∈ (if file.package = "" then [] else [Parser.Statement.package file.package]),
      statement.WellFormed := by
    split
    · simp
    · rename_i present
      simpa [Parser.Statement.WellFormed] using wellFormed.package.resolve_left present
  simp only [SchemaFile.statements, List.forall_mem_append, List.forall_mem_map]
  refine ⟨⟨⟨⟨⟨?_, package⟩, ?_⟩, wellFormed.settings⟩, ?_⟩, ?_⟩
  · exact fun _ _ => trivial
  · exact fun _ _ => trivial
  · exact fun message member => (wellFormed.messages message member).statement
  · exact fun enumeration member => (wellFormed.enumerations enumeration member).statement

theorem filterMap_statements {α : Type} (select : Parser.Statement → Option α) (file : SchemaFile) :
    file.statements.filterMap select =
      file.syntaxVersion.toList.filterMap (fun text => select (.version text)) ++
        (if file.package = "" then [] else (select (.package file.package)).toList) ++
        file.imports.filterMap (fun path => select (.imported path)) ++
        file.settings.filterMap (fun setting => select (.setting setting)) ++
        file.messages.filterMap (fun message => select message.statement) ++
        file.enumerations.filterMap (fun enumeration => select enumeration.statement) := by
  have package : (if file.package = "" then [] else [Parser.Statement.package file.package]).filterMap select =
      if file.package = "" then [] else (select (.package file.package)).toList := by
    split
    · rfl
    · rw [List.filterMap_cons]
      cases select (.package file.package) <;> rfl
  simp only [SchemaFile.statements, List.filterMap_append, List.filterMap_map, package]
  rfl

theorem packageOf_statements (file : SchemaFile) : packageOf file.statements = file.package := by
  rw [packageOf, filterMap_statements]
  simp only [List.filterMap_none, Message.statement, Enumeration.statement]
  by_cases empty : file.package = "" <;> simp [empty]

theorem ofStatements_statements {file : SchemaFile} (wellFormed : file.WellFormed) :
    ofStatements file.identifier file.statements = file := by
  have version : file.syntaxVersion.toList.getLast? = file.syntaxVersion := by cases file.syntaxVersion <;> rfl
  have messages : file.messages.map (fun message => Message.ofItems file.package message.name
      (message.settings.map .setting ++ message.fields.map .field)) = file.messages :=
    (List.map_congr_left fun message member => (wellFormed.messages message member).ofItems_eq).trans (List.map_id _)
  have enumerations : file.enumerations.map (fun enumeration => Enumeration.ofItems file.package enumeration.name
      (enumeration.settings.map .setting ++ enumeration.values.map .value)) = file.enumerations :=
    (List.map_congr_left fun enumeration member => (wellFormed.enumerations enumeration member).ofItems_eq).trans
      (List.map_id _)
  rw [ofStatements, packageOf_statements]
  simp only [filterMap_statements]
  simp [Message.statement, Enumeration.statement, version, messages, enumerations]

theorem tokenize_print {file : SchemaFile} (wellFormed : file.WellFormed) :
    ∃ tokens, tokenize file.print = .ok tokens ∧ tokens.map (·.kind) = file.kinds := by
  have valid : ∀ part ∈ file.parts, part.Valid := by
    rw [parts, List.forall_mem_flatMap]
    exact fun statement member => (wellFormed.statements statement member).valid
  have spells := spells_parts valid .start
  rw [tokenize, Cursor.ofText, print, String.toList_ofList]
  exact spells

end SchemaFile

end SchemaMarshal
