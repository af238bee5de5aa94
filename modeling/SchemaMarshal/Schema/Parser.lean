import SchemaMarshal.Schema.Error
import SchemaMarshal.Text.Numeral
import SchemaMarshal.Token.Cursor

/-! Reading a schema file from tokens.

A file is a sequence of statements, a message or enumeration a block of items. Each of them takes
at least one token, which is why reading ends; `Advances` and `Keeps` say so for each reader.
Nothing but the presence of an earlier package statement passes from one statement to the next.
-/

set_option autoImplicit false

namespace SchemaMarshal

/-- Why tokens are refused, wherever they came from. -/
inductive Failure where
  | malformed (position : Position) (cause : Malformation)
  | unexpectedEnd (expected : Expectation)
  | unsupported (line : Nat) (construct : String)
  deriving DecidableEq, Repr

def Failure.inSource (source : Identifier) : Failure → ParseError
  | .malformed position cause => .malformed source position cause
  | .unexpectedEnd expected => .unexpectedEnd source expected
  | .unsupported line construct => .unsupported source line construct

/-- Reads from the front of the tokens and returns the rest. -/
def Parser (α : Type) : Type := List Token → Except Failure (α × List Token)

namespace Parser

variable {α β : Type}

instance : Monad Parser where
  pure value := fun tokens => .ok (value, tokens)
  bind parser following := fun tokens =>
    match parser tokens with
    | .ok (value, rest) => following value rest
    | .error failure => .error failure

/-- Success leaves fewer tokens. -/
def Advances (parser : Parser α) : Prop :=
  ∀ ⦃tokens : List Token⦄ ⦃value : α⦄ ⦃rest : List Token⦄,
    parser tokens = .ok (value, rest) → rest.length < tokens.length

/-- Success leaves no more tokens than there were. -/
def Keeps (parser : Parser α) : Prop :=
  ∀ ⦃tokens : List Token⦄ ⦃value : α⦄ ⦃rest : List Token⦄,
    parser tokens = .ok (value, rest) → rest.length ≤ tokens.length

theorem Advances.keeps {parser : Parser α} (advances : parser.Advances) : parser.Keeps :=
  fun _ _ _ success => Nat.le_of_lt (advances success)

theorem bind_eq_ok {parser : Parser α} {following : α → Parser β} {tokens rest : List Token} {value : β} :
    (parser >>= following) tokens = .ok (value, rest) ↔
      ∃ first middle, parser tokens = .ok (first, middle) ∧ following first middle = .ok (value, rest) := by
  simp only [bind]
  cases parser tokens with
  | error failure => simp
  | ok result =>
    obtain ⟨first, middle⟩ := result
    constructor
    · intro continued
      exact ⟨first, middle, rfl, continued⟩
    · rintro ⟨_, _, same, continued⟩
      cases same
      exact continued

theorem bind_of_ok {reader : Parser α} {tokens rest : List Token} {value : α}
    (read : reader tokens = .ok (value, rest)) (following : α → Parser β) :
    (reader >>= following) tokens = following value rest := by
  simp only [bind, read]

theorem bind_of_error {reader : Parser α} {tokens : List Token} {failure : Failure}
    (failed : reader tokens = .error failure) (following : α → Parser β) :
    (reader >>= following) tokens = .error failure := by
  simp only [bind, failed]

theorem bind_eq_error {reader : Parser α} {following : α → Parser β} {tokens : List Token} {failure : Failure}
    (failed : (reader >>= following) tokens = .error failure) :
    reader tokens = .error failure ∨
      ∃ value rest, reader tokens = .ok (value, rest) ∧ following value rest = .error failure := by
  cases read : reader tokens with
  | error cause =>
    rw [bind_of_error read] at failed
    cases failed
    exact Or.inl rfl
  | ok result => exact Or.inr ⟨result.1, result.2, rfl, bind_of_ok read following ▸ failed⟩

theorem keeps_pure (value : α) : (pure value : Parser α).Keeps := by
  intro tokens result rest success
  cases success
  exact Nat.le_refl _

theorem Keeps.bind {parser : Parser α} {following : α → Parser β} (first : parser.Keeps)
    (next : ∀ value, (following value).Keeps) : (parser >>= following).Keeps := by
  intro tokens result rest success
  obtain ⟨value, middle, parsed, continued⟩ := bind_eq_ok.mp success
  exact Nat.le_trans (next value continued) (first parsed)

theorem Advances.bind {parser : Parser α} {following : α → Parser β} (first : parser.Advances)
    (next : ∀ value, (following value).Keeps) : (parser >>= following).Advances := by
  intro tokens result rest success
  obtain ⟨value, middle, parsed, continued⟩ := bind_eq_ok.mp success
  exact Nat.lt_of_le_of_lt (next value continued) (first parsed)

theorem Keeps.bindAdvances {parser : Parser α} {following : α → Parser β} (first : parser.Keeps)
    (next : ∀ value, (following value).Advances) : (parser >>= following).Advances := by
  intro tokens result rest success
  obtain ⟨value, middle, parsed, continued⟩ := bind_eq_ok.mp success
  exact Nat.lt_of_lt_of_le (next value continued) (first parsed)

/-! ### Single tokens -/

def fail (failure : Failure) : Parser α := fun _ => .error failure

/-- Go on only if `condition` holds. -/
def require (condition : Bool) (failure : Failure) : Parser Unit :=
  if condition then pure () else fail failure

def demand (value? : Option α) (failure : Failure) : Parser α :=
  match value? with
  | some value => pure value
  | none => fail failure

def unexpected (token : Token) (expected : Expectation) : Failure :=
  .malformed token.position (.unexpected expected token.kind)

/-- The next token, which stays. -/
def peek (expected : Expectation) : Parser Token
  | [] => .error (.unexpectedEnd expected)
  | token :: rest => .ok (token, token :: rest)

def next (expected : Expectation) : Parser Token
  | [] => .error (.unexpectedEnd expected)
  | token :: rest => .ok (token, rest)

/-- Whether a symbol comes next; it stays. -/
def nextIs (character : Char) : Parser Bool
  | [] => .ok (false, [])
  | token :: rest => .ok (token.isSymbol character, token :: rest)

/-- Take a symbol if it comes next. -/
def skipSymbol (character : Char) : Parser Bool
  | [] => .ok (false, [])
  | token :: rest =>
      if token.isSymbol character then .ok (true, rest) else .ok (false, token :: rest)

/-- Take one of some words if it comes next. -/
def skipWord (words : List String) : Parser Unit
  | [] => .ok ((), [])
  | token :: rest =>
      if words.any token.isIdentifier then .ok ((), rest) else .ok ((), token :: rest)

def symbol (character : Char) : Parser Unit := do
  let token ← next (.symbol character)
  require (token.isSymbol character) (unexpected token (.symbol character))

def identifier (expected : Expectation) : Parser String := do
  let token ← next expected
  match token.kind with
  | .identifier text => pure text
  | _ => fail (unexpected token expected)

def quoted (expected : Expectation) : Parser String := do
  let token ← next expected
  match token.kind with
  | .quoted value => pure value
  | _ => fail (unexpected token expected)

theorem keeps_fail (failure : Failure) : (fail failure : Parser α).Keeps := by
  intro tokens result rest success
  cases success

theorem advances_fail (failure : Failure) : (fail failure : Parser α).Advances := by
  intro tokens result rest success
  cases success

theorem keeps_require (condition : Bool) (failure : Failure) : (require condition failure).Keeps := by
  unfold require
  split
  · exact keeps_pure ()
  · exact keeps_fail failure

theorem keeps_demand (value? : Option α) (failure : Failure) : (demand value? failure).Keeps := by
  unfold demand
  split
  · exact keeps_pure _
  · exact keeps_fail failure

theorem keeps_peek (expected : Expectation) : (peek expected).Keeps := by
  rintro (_ | ⟨token, tokens⟩) result rest success <;> cases success
  exact Nat.le_refl _

theorem advances_next (expected : Expectation) : (next expected).Advances := by
  rintro (_ | ⟨token, tokens⟩) result rest success <;> cases success
  exact Nat.lt_succ_self _

theorem keeps_nextIs (character : Char) : (nextIs character).Keeps := by
  rintro (_ | ⟨token, tokens⟩) result rest success <;> cases success <;> exact Nat.le_refl _

theorem keeps_skipSymbol (character : Char) : (skipSymbol character).Keeps := by
  rintro (_ | ⟨token, tokens⟩) result rest success
  · cases success; exact Nat.le_refl _
  · simp only [skipSymbol] at success
    split at success <;> cases success
    · exact Nat.le_succ _
    · exact Nat.le_refl _

theorem keeps_skipWord (words : List String) : (skipWord words).Keeps := by
  rintro (_ | ⟨token, tokens⟩) result rest success
  · cases success; exact Nat.le_refl _
  · simp only [skipWord] at success
    split at success <;> cases success
    · exact Nat.le_succ _
    · exact Nat.le_refl _

theorem advances_symbol (character : Char) : (symbol character).Advances :=
  (advances_next _).bind fun _ => keeps_require _ _

theorem advances_identifier (expected : Expectation) : (identifier expected).Advances :=
  (advances_next _).bind fun token => by
    split
    · exact keeps_pure _
    · exact keeps_fail _

theorem advances_quoted (expected : Expectation) : (quoted expected).Advances :=
  (advances_next _).bind fun token => by
    split
    · exact keeps_pure _
    · exact keeps_fail _

/-! ### Names, constants and what is passed over -/

/-- Any number of `.part` after a name. -/
def nameParts (expected : Expectation) : Parser String
  | [] => .ok ("", [])
  | [token] => if token.isSymbol '.' then .error (.unexpectedEnd expected) else .ok ("", [token])
  | token :: part :: rest =>
      if token.isSymbol '.' then
        match part.kind with
        | .identifier text =>
            match nameParts expected rest with
            | .ok (parts, rest) => .ok ("." ++ text ++ parts, rest)
            | .error failure => .error failure
        | _ => .error (unexpected part expected)
      else .ok ("", token :: part :: rest)

/-- A name with parts, perhaps after a leading point. -/
def dottedName (expected : Expectation) : Parser String := do
  let absolute ← skipSymbol '.'
  let first ← identifier expected
  let parts ← nameParts expected
  pure ((if absolute then "." else "") ++ first ++ parts)

def adjacentStrings : Parser String
  | [] => .ok ("", [])
  | token :: rest =>
      match token.kind with
      | .quoted value =>
          match adjacentStrings rest with
          | .ok (values, rest) => .ok (value ++ values, rest)
          | .error failure => .error failure
      | _ => .ok ("", token :: rest)

/-- What may follow the sign of a constant. -/
def unsigned : Parser String := do
  let token ← next .number
  match token.kind with
  | .integer literal => pure literal
  | .decimal literal => pure literal
  | .identifier text => do
      require (text = "inf" || text = "nan") (unexpected token .number)
      pure text
  | _ => fail (unexpected token .number)

def constant : Parser String := do
  let token ← next .constant
  match token.kind with
  | .quoted value => do
      let values ← adjacentStrings
      pure (value ++ values)
  | .identifier text => pure text
  | .integer literal => pure literal
  | .decimal literal => pure literal
  | .symbol '-' => do
      let magnitude ← unsigned
      pure ("-" ++ magnitude)
  | .symbol '+' => do
      let magnitude ← unsigned
      pure ("+" ++ magnitude)
  | .symbol '\x7b' => fail (.unsupported token.position.line "aggregate option value")
  | _ => fail (unexpected token .constant)

def integer (expected : Expectation) : Parser Int64 := do
  let negative ← skipSymbol '-'
  let token ← next expected
  match token.kind with
  | .integer literal => do
      let magnitude ← demand (Numeral.value? literal) (.malformed token.position (.invalidInteger literal))
      pure (if negative then -magnitude else magnitude)
  | _ => fail (unexpected token expected)

/-- Pass over tokens through the bracket that closes the group at hand; `depth` groups inside it
are open as well. -/
def skipGroup : Nat → Parser Unit
  | _, [] => .error (.unexpectedEnd (.symbol ']'))
  | depth, token :: rest =>
      if token.isSymbol '[' then skipGroup (depth + 1) rest
      else if token.isSymbol ']' then
        match depth with
        | 0 => .ok ((), rest)
        | depth + 1 => skipGroup depth rest
      else skipGroup depth rest

def attributes : Parser Unit := do
  let opened ← skipSymbol '['
  if opened then skipGroup 0 else pure ()

/-- Pass over tokens through the next semicolon. -/
def skipStatement : Parser Unit
  | [] => .error (.unexpectedEnd (.symbol ';'))
  | token :: rest => if token.isSymbol ';' then .ok ((), rest) else skipStatement rest

theorem keeps_nameParts (expected : Expectation) : (nameParts expected).Keeps := by
  intro tokens
  fun_induction nameParts expected tokens with
  | case1 => intro _ _ success; cases success; exact Nat.le_refl _
  | case2 => intro _ _ success; cases success
  | case3 => intro _ _ success; cases success; exact Nat.le_refl _
  | case4 token part rest _ text _ parts left parsed ih =>
    intro _ _ success
    cases success
    have := ih parsed
    simp only [List.length_cons]
    omega
  | case5 => intro _ _ success; cases success
  | case6 => intro _ _ success; cases success
  | case7 => intro _ _ success; cases success; exact Nat.le_refl _

theorem advances_dottedName (expected : Expectation) : (dottedName expected).Advances :=
  (keeps_skipSymbol _).bindAdvances fun _ =>
    (advances_identifier _).bind fun _ => (keeps_nameParts _).bind fun _ => keeps_pure _

theorem keeps_adjacentStrings : adjacentStrings.Keeps := by
  intro tokens
  fun_induction adjacentStrings tokens with
  | case1 => intro _ _ success; cases success; exact Nat.le_refl _
  | case2 token rest value _ values left parsed ih =>
    intro _ _ success
    cases success
    exact Nat.le_succ_of_le (ih parsed)
  | case3 => intro _ _ success; cases success
  | case4 => intro _ _ success; cases success; exact Nat.le_refl _

theorem keeps_unsigned : unsigned.Keeps :=
  (advances_next _).keeps.bind fun token => by
    split
    · exact keeps_pure _
    · exact keeps_pure _
    · exact (keeps_require _ _).bind fun _ => keeps_pure _
    · exact keeps_fail _

theorem keeps_constant : constant.Keeps :=
  (advances_next _).keeps.bind fun token => by
    split
    · exact keeps_adjacentStrings.bind fun _ => keeps_pure _
    · exact keeps_pure _
    · exact keeps_pure _
    · exact keeps_pure _
    · exact keeps_unsigned.bind fun _ => keeps_pure _
    · exact keeps_unsigned.bind fun _ => keeps_pure _
    · exact keeps_fail _
    · exact keeps_fail _

theorem keeps_integer (expected : Expectation) : (integer expected).Keeps :=
  (keeps_skipSymbol _).bind fun _ => (advances_next _).keeps.bind fun token => by
    split
    · exact (keeps_demand _ _).bind fun _ => keeps_pure _
    · exact keeps_fail _

theorem keeps_skipGroup (depth : Nat) : (skipGroup depth).Keeps := by
  intro tokens
  fun_induction skipGroup depth tokens with
  | case1 => intro _ _ success; cases success
  | case3 => intro _ _ success; cases success; exact Nat.le_succ _
  | case2 _ _ _ _ ih | case4 _ _ _ _ _ ih | case5 _ _ _ _ _ ih =>
    intro _ _ success
    exact Nat.le_succ_of_le (ih success)

theorem keeps_attributes : attributes.Keeps :=
  (keeps_skipSymbol _).bind fun opened => by
    split
    · exact keeps_skipGroup 0
    · exact keeps_pure ()

theorem advances_skipStatement : skipStatement.Advances := by
  intro tokens
  fun_induction skipStatement tokens with
  | case1 => intro _ _ success; cases success
  | case2 => intro _ _ success; cases success; exact Nat.lt_succ_self _
  | case3 _ _ _ ih => intro _ _ success; exact Nat.lt_succ_of_lt (ih success)

/-! ### Settings, fields and values -/

/-- The name of a setting: plain or in parentheses, then any number of parts. -/
def settingName : Parser String := do
  let custom ← skipSymbol '('
  if custom then do
    let name ← dottedName .settingName
    symbol ')'
    let parts ← nameParts .settingName
    pure ("(" ++ name ++ ")" ++ parts)
  else do
    let name ← identifier .settingName
    let parts ← nameParts .settingName
    pure (name ++ parts)

def setting : Parser Setting := do
  let name ← settingName
  symbol '='
  let value ← constant
  symbol ';'
  pure { name, value }

def label : Parser Label
  | [] => .ok (.implicit, [])
  | token :: rest =>
      match token.kind with
      | .identifier text =>
          match Label.ofKeyword? text with
          | some label => .ok (label, rest)
          | none => .ok (.implicit, token :: rest)
      | _ => .ok (.implicit, token :: rest)

/-- Groups and maps are types of their own that only look like a type name. -/
def field : Parser Field := do
  let label ← label
  let typeToken ← peek .fieldType
  let typeName ← dottedName .fieldType
  let parameters ← nextIs '<'
  require (typeName ≠ "group" && !(typeName = "map" && parameters))
    (.unsupported typeToken.position.line typeName)
  let name ← identifier .fieldName
  symbol '='
  let numberToken ← peek .fieldNumber
  let written ← integer .fieldNumber
  let number ← demand (Field.number? written)
    (.malformed numberToken.position (.fieldNumberOutOfRange written))
  attributes
  symbol ';'
  pure { name, typeName, number, label }

def enumValue (name : String) : Parser EnumValue := do
  symbol '='
  let ordinalToken ← peek .enumOrdinal
  let written ← integer .enumOrdinal
  let ordinal ← demand (EnumValue.ordinal? written)
    (.malformed ordinalToken.position (.ordinalOutOfRange written))
  attributes
  symbol ';'
  pure { name, ordinal }

theorem keeps_settingName : settingName.Keeps :=
  (keeps_skipSymbol _).bind fun custom => by
    split
    · exact (advances_dottedName _).keeps.bind fun _ => (advances_symbol _).keeps.bind fun _ =>
        (keeps_nameParts _).bind fun _ => keeps_pure _
    · exact (advances_identifier _).keeps.bind fun _ => (keeps_nameParts _).bind fun _ => keeps_pure _

theorem keeps_setting : setting.Keeps :=
  keeps_settingName.bind fun _ => (advances_symbol _).keeps.bind fun _ =>
    keeps_constant.bind fun _ => (advances_symbol _).keeps.bind fun _ => keeps_pure _

theorem keeps_label : label.Keeps := by
  rintro (_ | ⟨token, tokens⟩) result rest success
  · cases success; exact Nat.le_refl _
  · simp only [label] at success
    split at success
    · split at success <;> cases success
      · exact Nat.le_succ _
      · exact Nat.le_refl _
    · cases success; exact Nat.le_refl _

theorem advances_field : field.Advances :=
  keeps_label.bindAdvances fun _ => (keeps_peek _).bindAdvances fun _ =>
    (advances_dottedName _).bind fun _ => (keeps_nextIs _).bind fun _ => (keeps_require _ _).bind fun _ =>
    (advances_identifier _).keeps.bind fun _ => (advances_symbol _).keeps.bind fun _ =>
    (keeps_peek _).bind fun _ => (keeps_integer _).bind fun _ => (keeps_demand _ _).bind fun _ =>
    keeps_attributes.bind fun _ => (advances_symbol _).keeps.bind fun _ => keeps_pure _

theorem keeps_enumValue (name : String) : (enumValue name).Keeps :=
  (advances_symbol _).keeps.bind fun _ => (keeps_peek _).bind fun _ => (keeps_integer _).bind fun _ =>
    (keeps_demand _ _).bind fun _ => keeps_attributes.bind fun _ => (advances_symbol _).keeps.bind fun _ =>
    keeps_pure _

/-! ### Messages and enumerations -/

inductive MessageItem where
  | empty
  | setting (setting : Setting)
  | field (field : Field)
  deriving DecidableEq, Repr

inductive EnumItem where
  | empty
  | setting (setting : Setting)
  | value (value : EnumValue)
  deriving DecidableEq, Repr

def nestedKeywords : List String := ["message", "enum", "oneof", "extend"]

/-- What the first token of an item says it is. -/
inductive MessageItem.Opening where
  | empty
  | setting
  | skipped
  | nested (keyword : String)
  | field
  | other
  deriving DecidableEq, Repr

def MessageItem.Opening.ofKind : Token.Kind → Opening
  | .symbol ';' => .empty
  | .identifier text =>
      if text = "option" then .setting
      else if text = "reserved" || text = "extensions" then .skipped
      else if nestedKeywords.contains text then .nested text
      else .field
  | _ => .other

def messageItemAs (first : Token) : MessageItem.Opening → Parser MessageItem
  | .empty => do
      symbol ';'
      pure .empty
  | .setting => do
      let _ ← next .settingName
      let setting ← setting
      pure (.setting setting)
  | .skipped => do
      skipStatement
      pure .empty
  | .nested keyword => fail (.unsupported first.position.line keyword)
  | .field => do
      let field ← field
      pure (.field field)
  | .other => fail (unexpected first .fieldDeclaration)

def messageItem : Parser MessageItem := do
  let first ← peek (.symbol '\x7d')
  messageItemAs first (.ofKind first.kind)

inductive EnumItem.Opening where
  | empty
  | setting
  | skipped
  | value (name : String)
  | other
  deriving DecidableEq, Repr

def EnumItem.Opening.ofKind : Token.Kind → Opening
  | .symbol ';' => .empty
  | .identifier text =>
      if text = "option" then .setting
      else if text = "reserved" then .skipped
      else .value text
  | _ => .other

def enumItemAs (first : Token) : EnumItem.Opening → Parser EnumItem
  | .empty => pure .empty
  | .setting => do
      let setting ← setting
      pure (.setting setting)
  | .skipped => do
      skipStatement
      pure .empty
  | .value name => do
      let value ← enumValue name
      pure (.value value)
  | .other => fail (unexpected first .enumValue)

def enumItem : Parser EnumItem := do
  let first ← next (.symbol '\x7d')
  enumItemAs first (.ofKind first.kind)

theorem advances_messageItemAs (first : Token) (opening : MessageItem.Opening) :
    (messageItemAs first opening).Advances := by
  cases opening with
  | empty => exact (advances_symbol _).bind fun _ => keeps_pure _
  | setting => exact (advances_next _).bind fun _ => keeps_setting.bind fun _ => keeps_pure _
  | skipped => exact advances_skipStatement.bind fun _ => keeps_pure _
  | nested keyword => exact advances_fail _
  | field => exact advances_field.bind fun _ => keeps_pure _
  | other => exact advances_fail _

theorem advances_messageItem : messageItem.Advances :=
  (keeps_peek _).bindAdvances fun first => advances_messageItemAs first _

theorem keeps_enumItemAs (first : Token) (opening : EnumItem.Opening) : (enumItemAs first opening).Keeps := by
  cases opening with
  | empty => exact keeps_pure _
  | setting => exact keeps_setting.bind fun _ => keeps_pure _
  | skipped => exact advances_skipStatement.keeps.bind fun _ => keeps_pure _
  | value name => exact (keeps_enumValue _).bind fun _ => keeps_pure _
  | other => exact keeps_fail _

theorem advances_enumItem : enumItem.Advances :=
  (advances_next _).bind fun first => keeps_enumItemAs first _

/-- Items up to a closing brace, which is taken. -/
def block (item : Parser α) (advances : item.Advances) (tokens : List Token) :
    Except Failure (List α × List Token) :=
  match tokens with
  | [] => .error (.unexpectedEnd (.symbol '\x7d'))
  | head :: tail =>
      if head.isSymbol '\x7d' then .ok ([], tail)
      else
        match parsed : item (head :: tail) with
        | .error failure => .error failure
        | .ok (first, rest) =>
            have := advances parsed
            match block item advances rest with
            | .ok (items, rest) => .ok (first :: items, rest)
            | .error failure => .error failure
termination_by tokens.length
decreasing_by exact this

theorem keeps_block (item : Parser α) (advances : item.Advances) : Keeps (block item advances) := by
  intro tokens
  fun_induction block item advances tokens with
  | case1 => intro _ _ success; cases success
  | case2 => intro _ _ success; cases success; exact Nat.le_succ _
  | case3 => intro _ _ success; cases success
  | case4 head tail _ first rest parsed _ items left continued ih =>
    intro _ _ success
    cases success
    exact Nat.le_trans (ih continued) (Nat.le_of_lt (advances parsed))
  | case5 => intro _ _ success; cases success

/-! ### Files -/

inductive Statement where
  | empty
  | version (text : String)
  | package (name : String)
  | imported (path : String)
  | setting (setting : Setting)
  | message (name : String) (items : List MessageItem)
  | enumeration (name : String) (items : List EnumItem)
  deriving DecidableEq, Repr

def Statement.isPackage : Statement → Bool
  | .package _ => true
  | _ => false

def unsupportedKeywords : List String := ["service", "extend", "edition"]

inductive Statement.Opening where
  | empty
  | version
  | package
  | imported
  | setting
  | message
  | enumeration
  | unsupported (keyword : String)
  | other
  deriving DecidableEq, Repr

def Statement.Opening.ofKind : Token.Kind → Opening
  | .symbol ';' => .empty
  | .identifier text =>
      if text = "syntax" then .version
      else if text = "package" then .package
      else if text = "import" then .imported
      else if text = "option" then .setting
      else if text = "message" then .message
      else if text = "enum" then .enumeration
      else if unsupportedKeywords.contains text then .unsupported text
      else .other
  | _ => .other

/-- A statement after its first token. A second package statement is refused where it begins. -/
def statementAs (packageSeen : Bool) (first : Token) : Statement.Opening → Parser Statement
  | .empty => pure .empty
  | .version => do
      symbol '='
      let version ← quoted .syntaxVersion
      symbol ';'
      pure (.version version)
  | .package => do
      require (!packageSeen) (.malformed first.position .repeatedPackage)
      let name ← dottedName .packageName
      symbol ';'
      pure (.package name)
  | .imported => do
      skipWord ["public", "weak"]
      let path ← quoted .importPath
      symbol ';'
      pure (.imported path)
  | .setting => do
      let setting ← setting
      pure (.setting setting)
  | .message => do
      let name ← identifier .messageName
      symbol '\x7b'
      let items ← block messageItem advances_messageItem
      pure (.message name items)
  | .enumeration => do
      let name ← identifier .enumName
      symbol '\x7b'
      let items ← block enumItem advances_enumItem
      pure (.enumeration name items)
  | .unsupported keyword => fail (.unsupported first.position.line keyword)
  | .other => fail (unexpected first .declaration)

def statement (packageSeen : Bool) : Parser Statement := do
  let first ← next .declaration
  statementAs packageSeen first (.ofKind first.kind)

theorem keeps_statementAs (packageSeen : Bool) (first : Token) (opening : Statement.Opening) :
    (statementAs packageSeen first opening).Keeps := by
  cases opening with
  | empty => exact keeps_pure _
  | version =>
    exact (advances_symbol _).keeps.bind fun _ => (advances_quoted _).keeps.bind fun _ =>
      (advances_symbol _).keeps.bind fun _ => keeps_pure _
  | package =>
    exact (keeps_require _ _).bind fun _ => (advances_dottedName _).keeps.bind fun _ =>
      (advances_symbol _).keeps.bind fun _ => keeps_pure _
  | imported =>
    exact (keeps_skipWord _).bind fun _ => (advances_quoted _).keeps.bind fun _ =>
      (advances_symbol _).keeps.bind fun _ => keeps_pure _
  | setting => exact keeps_setting.bind fun _ => keeps_pure _
  | message =>
    exact (advances_identifier _).keeps.bind fun _ => (advances_symbol _).keeps.bind fun _ =>
      (keeps_block _ _).bind fun _ => keeps_pure _
  | enumeration =>
    exact (advances_identifier _).keeps.bind fun _ => (advances_symbol _).keeps.bind fun _ =>
      (keeps_block _ _).bind fun _ => keeps_pure _
  | unsupported keyword => exact keeps_fail _
  | other => exact keeps_fail _

theorem advances_statement (packageSeen : Bool) : (statement packageSeen).Advances :=
  (advances_next _).bind fun first => keeps_statementAs packageSeen first _

/-- All statements; `packageSeen` says whether a package statement stands before these tokens. -/
def statements (packageSeen : Bool) (tokens : List Token) : Except Failure (List Statement) :=
  match tokens with
  | [] => .ok []
  | head :: tail =>
      match parsed : statement packageSeen (head :: tail) with
      | .error failure => .error failure
      | .ok (first, rest) =>
          have := advances_statement packageSeen parsed
          match statements (packageSeen || first.isPackage) rest with
          | .ok others => .ok (first :: others)
          | .error failure => .error failure
termination_by tokens.length
decreasing_by exact this

end Parser

/-! ### From statements to the file they describe -/

namespace Message

def ofItems (package name : String) (items : List Parser.MessageItem) : Message where
  name := name
  fullName := qualify package name
  fields := items.filterMap fun
    | .field field => some field
    | _ => none
  settings := items.filterMap fun
    | .setting setting => some setting
    | _ => none

end Message

namespace Enumeration

def ofItems (package name : String) (items : List Parser.EnumItem) : Enumeration where
  name := name
  fullName := qualify package name
  values := items.filterMap fun
    | .value value => some value
    | _ => none
  settings := items.filterMap fun
    | .setting setting => some setting
    | _ => none

end Enumeration

namespace SchemaFile

def packageOf (statements : List Parser.Statement) : String :=
  ((statements.filterMap fun
    | .package name => some name
    | _ => none).getLast?).getD ""

/-- The package may stand anywhere in the file; full names follow it. Of several syntax versions
the last one counts. -/
def ofStatements (identifier : Identifier) (statements : List Parser.Statement) : SchemaFile where
  identifier := identifier
  syntaxVersion := (statements.filterMap fun
    | .version text => some text
    | _ => none).getLast?
  package := packageOf statements
  imports := statements.filterMap fun
    | .imported path => some path
    | _ => none
  settings := statements.filterMap fun
    | .setting setting => some setting
    | _ => none
  messages := statements.filterMap fun
    | .message name items => some (.ofItems (packageOf statements) name items)
    | _ => none
  enumerations := statements.filterMap fun
    | .enumeration name items => some (.ofItems (packageOf statements) name items)
    | _ => none

def ofTokens (identifier : Identifier) (tokens : List Token) : Except ParseError SchemaFile :=
  match Parser.statements false tokens with
  | .ok statements => .ok (ofStatements identifier statements)
  | .error failure => .error (failure.inSource identifier)

/-- A fault in the tokens comes before any fault in their order. -/
def parse (identifier : Identifier) (text : String) : Except ParseError SchemaFile :=
  match tokenize text with
  | .ok tokens => ofTokens identifier tokens
  | .error error => .error (.malformed identifier error.position (.lexical error.cause))

end SchemaFile

end SchemaMarshal
