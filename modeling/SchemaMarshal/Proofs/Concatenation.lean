import SchemaMarshal.Proofs.Lookahead
import SchemaMarshal.Proofs.ParserImage
import SchemaMarshal.Proofs.Tiling

/-! Reading two texts as one.

Behind a line feed the tokens of a second text follow those of the first, moved down by the lines of
the first. Statements follow each other in the same way, and only the package passes from one to the
next: so the file of two texts is the merge of their files, unless each of them has a package.
-/

set_option autoImplicit false

namespace SchemaMarshal

def Position.down (lines : Nat) (position : Position) : Position := ⟨position.line + lines, position.column⟩

theorem Position.after_down (lines : Nat) (position : Position) (text : List Char) :
    (position.down lines).after text = (position.after text).down lines := by
  induction text generalizing position with
  | nil => rfl
  | cons c text ih =>
    rw [after_cons, after_cons, ← ih]
    congr 1
    simp only [advance, down]
    split
    · simp only [Nat.add_right_comm]
    · rfl

theorem Position.start_after_feed (text : List Char) :
    start.after (text ++ ['\n']) = start.down (text.count '\n' + 1) := by
  have behindNothing : start = behind [] := rfl
  rw [behindNothing, after_behind]
  simp [behind, down]

def Token.down (lines : Nat) (token : Token) : Token := ⟨token.kind, token.position.down lines⟩

theorem map_kind_down (lines : Nat) (tokens : List Token) :
    (tokens.map (Token.down lines)).map (·.kind) = tokens.map (·.kind) := by
  rw [List.map_map]
  rfl

namespace Cursor

theorem tokens_gap {gap : List Char} (isGap : Trivia.Gap gap) (position : Position) (rest : List Char) :
    tokens ⟨position, gap ++ rest⟩ = tokens ⟨position.after gap, rest⟩ := by
  rw [tokens_eq, next_gap isGap, ← tokens_eq]

theorem tokens_lexeme {head : Char} {tail lexeme rest : List Char} {kind : Token.Kind}
    (scanned : Lexeme.scan head tail = .token kind lexeme rest) (position : Position) :
    tokens ⟨position, head :: tail⟩ = (tokens ⟨position.after lexeme, rest⟩).map (⟨kind, position⟩ :: ·) := by
  rw [tokens_eq, next_lexeme scanned]
  simp only
  cases tokens ⟨position.after lexeme, rest⟩ <;> rfl

theorem tokens_closing {text : List Char} (closing : Trivia.Closing text) (position : Position) :
    tokens ⟨position, text⟩ = .ok [] := by
  rcases closing with isGap | ⟨gap, body, isGap, single, rfl⟩
  · rw [← List.append_nil text, tokens_gap isGap, tokens_eq]
    rfl
  · rw [tokens_gap isGap, tokens_eq, next_openLine single]

theorem Reads.tokens_append_feed {cursor : Cursor} {read : List Token} (reads : Reads cursor read) (text : List Char) :
    tokens ⟨cursor.position, cursor.rest ++ '\n' :: text⟩ =
      (tokens ⟨cursor.position.after (cursor.rest ++ ['\n']), text⟩).map (read ++ ·) := by
  induction reads with
  | @finished rest position closing =>
    have split : rest ++ '\n' :: text = (rest ++ ['\n']) ++ text := by simp
    rw [split, tokens_gap closing.append_feed]
    cases tokens ⟨position.after (rest ++ ['\n']), text⟩ <;> rfl
  | @token gap inner rest head kind later position isGap kept _ onwards =>
    have scanned := kept (rest ++ '\n' :: text) (.append_right (by decide) rest text)
    simp only at onwards ⊢
    rw [List.append_assoc, tokens_gap isGap, List.cons_append, List.append_assoc, tokens_lexeme scanned, onwards,
      ← Position.after_append, ← Position.after_append]
    simp only [List.append_assoc, List.cons_append]
    cases tokens _ <;> rfl

theorem Reads.tokens_down {cursor : Cursor} {read : List Token} (reads : Reads cursor read) (lines : Nat) :
    tokens ⟨cursor.position.down lines, cursor.rest⟩ = .ok (read.map (Token.down lines)) := by
  induction reads with
  | finished position closing => exact tokens_closing closing _
  | @token gap inner rest head kind later position isGap kept _ onwards =>
    have scanned := kept rest fun c first => Or.inl first
    simp only at onwards ⊢
    rw [tokens_gap isGap, tokens_lexeme scanned, Position.after_down, Position.after_down, onwards]
    rfl

end Cursor

theorem tokenize_append_feed {first second : String} {firstTokens secondTokens : List Token}
    (readFirst : tokenize first = .ok firstTokens) (readSecond : tokenize second = .ok secondTokens) :
    tokenize (first ++ "\n" ++ second) =
      .ok (firstTokens ++ secondTokens.map (Token.down (first.toList.count '\n' + 1))) := by
  have text : (first ++ "\n" ++ second).toList = first.toList ++ '\n' :: second.toList := by
    simp [String.toList_append]
  have joined := (Cursor.reads_of_tokens readFirst).tokens_append_feed second.toList
  have lower := (Cursor.reads_of_tokens readSecond).tokens_down (first.toList.count '\n' + 1)
  simp only [Cursor.ofText, Position.start_after_feed] at joined lower
  rw [tokenize, Cursor.ofText, text, joined, lower]
  rfl

namespace Parser

theorem statements_of_statement {packageSeen : Bool} {tokens rest : List Token} {first : Statement}
    (parsed : statement packageSeen tokens = .ok (first, rest)) :
    statements packageSeen tokens = (statements (packageSeen || first.isPackage) rest).map (first :: ·) := by
  cases tokens with
  | nil => cases parsed
  | cons head tail =>
    rw [statements]
    split <;> rename_i again <;> rw [parsed] at again <;> cases again
    cases statements (packageSeen || first.isPackage) rest <;> rfl

theorem statements_of_statement_error {packageSeen : Bool} {head : Token} {tail : List Token} {failure : Failure}
    (failed : statement packageSeen (head :: tail) = .error failure) :
    statements packageSeen (head :: tail) = .error failure := by
  rw [statements]
  split <;> rename_i again <;> rw [failed] at again <;> cases again
  rfl

/-- Statements that stand behind others are read as if they stood alone, but for the package. -/
theorem statements_append {packageSeen : Bool} {tokens : List Token} {read : List Statement}
    (parsed : statements packageSeen tokens = .ok read) {moved : List Token}
    (same : moved.map (·.kind) = tokens.map (·.kind)) (more : List Token) :
    statements packageSeen (moved ++ more) =
      (statements (packageSeen || read.any (·.isPackage)) more).map (read ++ ·) := by
  fun_induction statements packageSeen tokens generalizing read moved with
  | case1 packageSeen =>
    cases parsed
    simp only [List.map_eq_nil_iff.mp same, List.any_nil, Bool.or_false, List.nil_append]
    cases statements packageSeen more <;> rfl
  | case2 => cases parsed
  | case3 packageSeen head tail first rest parsedFirst _ others continued ih =>
    cases parsed
    obtain ⟨taken, -, split, repeats⟩ := firm_statement packageSeen parsedFirst
    rw [split, List.map_append] at same
    obtain ⟨front, back, rfl, sameFront, sameBack⟩ := List.map_eq_append_iff.mp same
    rw [List.append_assoc, statements_of_statement (repeats (back ++ more) sameFront), ih continued sameBack,
      List.any_cons, Bool.or_assoc]
    cases statements (packageSeen || (first.isPackage || others.any (·.isPackage))) more <;> rfl
  | case4 => cases parsed

theorem statements_moved {packageSeen : Bool} {tokens : List Token} {read : List Statement}
    (parsed : statements packageSeen tokens = .ok read) {moved : List Token}
    (same : moved.map (·.kind) = tokens.map (·.kind)) : statements packageSeen moved = .ok read := by
  have alone := statements_append parsed same []
  rw [List.append_nil, statements] at alone
  simpa [Except.map] using alone

section

variable {α β : Type}

def Returns (reader : Parser α) (holds : α → Prop) : Prop :=
  ∀ ⦃tokens : List Token⦄ ⦃value : α⦄ ⦃rest : List Token⦄, reader tokens = .ok (value, rest) → holds value

theorem returns_pure {value : α} {holds : α → Prop} (valid : holds value) : Returns (pure value) holds := by
  intro tokens result rest success
  cases success
  exact valid

theorem returns_fail (failure : Failure) (holds : α → Prop) : Returns (fail failure) holds :=
  fun _ _ _ success => nomatch success

theorem returns_bind {reader : Parser α} {following : α → Parser β} {holds : β → Prop}
    (next : ∀ value, Returns (following value) holds) : Returns (reader >>= following) holds := by
  intro tokens result rest success
  obtain ⟨value, middle, -, continued⟩ := bind_eq_ok.mp success
  exact next value continued

end

theorem next_bind_cons {α : Type} (expected : Expectation) (following : Token → Parser α) (token : Token)
    (tokens : List Token) : (next expected >>= following) (token :: tokens) = following token tokens := rfl

theorem Statement.Opening.ofKind_eq_package_iff {kind : Token.Kind} :
    ofKind kind = .package ↔ kind = .identifier "package" := by
  constructor
  · intro opens
    unfold ofKind at opens
    split at opens
    · cases opens
    · rename_i text
      by_cases keyword : text = "package"
      · rw [keyword]
      · simp only [keyword, if_false] at opens
        repeat' split at opens
        all_goals cases opens
    · cases opens
  · rintro rfl
    rfl

theorem returns_statementAs (packageSeen : Bool) (first : Token) (opening : Statement.Opening) :
    Returns (statementAs packageSeen first opening) fun read => read.isPackage = decide (opening = .package) := by
  cases opening with
  | empty => exact returns_pure rfl
  | version | package | imported | message | enumeration =>
    exact returns_bind fun _ => returns_bind fun _ => returns_bind fun _ => returns_pure rfl
  | setting => exact returns_bind fun _ => returns_pure rfl
  | unsupported keyword => exact returns_fail _ _
  | other => exact returns_fail _ _

theorem isPackage_of_statement {packageSeen : Bool} {token : Token} {tokens rest : List Token} {first : Statement}
    (parsed : statement packageSeen (token :: tokens) = .ok (first, rest)) :
    first.isPackage = decide (token.kind = .identifier "package") := by
  rw [statement, next_bind_cons] at parsed
  rw [returns_statementAs packageSeen token _ parsed, decide_eq_decide]
  exact Statement.Opening.ofKind_eq_package_iff

/-- Only a package statement depends on whether there was one before. -/
theorem statement_flag {token : Token} (other : token.kind ≠ .identifier "package") (packageSeen seen : Bool)
    (tokens : List Token) : statement packageSeen (token :: tokens) = statement seen (token :: tokens) := by
  rw [statement, statement, next_bind_cons, next_bind_cons]
  rw [ne_eq, ← Statement.Opening.ofKind_eq_package_iff] at other
  cases opens : Statement.Opening.ofKind token.kind with
  | package => exact absurd opens other
  | _ => rfl

theorem statement_of_not_package {packageSeen : Bool} {tokens rest : List Token} {first : Statement}
    (parsed : statement packageSeen tokens = .ok (first, rest)) (other : first.isPackage = false) (seen : Bool) :
    statement seen tokens = .ok (first, rest) := by
  cases tokens with
  | nil => cases parsed
  | cons token tokens =>
    rw [isPackage_of_statement parsed, decide_eq_false_iff_not] at other
    rw [statement_flag other seen packageSeen, parsed]

theorem statements_of_not_package {packageSeen : Bool} {tokens : List Token} {read : List Statement}
    (parsed : statements packageSeen tokens = .ok read) (none : read.any (·.isPackage) = false) (seen : Bool) :
    statements seen tokens = .ok read := by
  fun_induction statements packageSeen tokens generalizing read seen with
  | case1 =>
    cases parsed
    rw [statements]
  | case2 => cases parsed
  | case3 packageSeen head tail first rest parsedFirst _ others continued ih =>
    cases parsed
    rw [List.any_cons, Bool.or_eq_false_iff] at none
    rw [statements_of_statement (statement_of_not_package parsedFirst none.1 seen), ih continued none.2]
    rfl
  | case4 => cases parsed

/-- `keyword` begins a package statement: whole statements stand before it. -/
def OpensPackage (tokens : List Token) (keyword : Token) : Prop :=
  keyword.kind = .identifier "package" ∧
    ∃ before after earlier, tokens = before ++ keyword :: after ∧ statements false before = .ok earlier

theorem exists_opensPackage {packageSeen : Bool} {tokens : List Token} {read : List Statement}
    (parsed : statements packageSeen tokens = .ok read) (declared : read.any (·.isPackage) = true) :
    ∃ keyword, OpensPackage tokens keyword := by
  fun_induction statements packageSeen tokens generalizing read with
  | case1 =>
    cases parsed
    cases declared
  | case2 => cases parsed
  | case3 packageSeen head tail first rest parsedFirst _ others continued ih =>
    cases parsed
    cases package : first.isPackage with
    | true =>
      rw [isPackage_of_statement parsedFirst, decide_eq_true_eq] at package
      exact ⟨head, package, [], tail, [], rfl, by rw [statements]⟩
    | false =>
      rw [List.any_cons, package, Bool.false_or] at declared
      obtain ⟨keyword, isKeyword, before, after, earlier, rfl, complete⟩ := ih continued declared
      obtain ⟨taken, -, split, repeats⟩ := firm_statement packageSeen parsedFirst
      refine ⟨keyword, isKeyword, taken ++ before, after, first :: earlier, by rw [split, List.append_assoc], ?_⟩
      rw [statements_of_statement (statement_of_not_package (repeats before rfl) package false), package, Bool.or_self,
        complete]
      rfl
  | case4 => cases parsed

theorem statements_repeatedPackage {keyword : Token} (isKeyword : keyword.kind = .identifier "package")
    (tokens : List Token) :
    statements true (keyword :: tokens) = .error (.malformed keyword.position .repeatedPackage) := by
  have refused : statement true (keyword :: tokens) = .error (.malformed keyword.position .repeatedPackage) := by
    simp only [statement, next_bind_cons, isKeyword]
    rfl
  rw [statements]
  split <;> rename_i again <;> rw [refused] at again <;> cases again
  rfl

theorem statements_down_of_opensPackage {tokens : List Token} {read : List Statement}
    (parsed : statements false tokens = .ok read) {keyword : Token} (opens : OpensPackage tokens keyword)
    (lines : Nat) :
    statements true (tokens.map (Token.down lines)) =
      .error (.malformed (keyword.position.down lines) .repeatedPackage) := by
  obtain ⟨isKeyword, before, after, earlier, rfl, complete⟩ := opens
  have unpackaged : earlier.any (·.isPackage) = false := by
    rw [← Bool.not_eq_true]
    intro declared
    rw [statements_append complete rfl, declared, Bool.or_true, statements_repeatedPackage isKeyword] at parsed
    cases parsed
  have isMoved : (keyword.down lines).kind = .identifier "package" := isKeyword
  rw [List.map_append, List.map_cons, statements_append (statements_of_not_package complete unpackaged true)
    (map_kind_down lines before), Bool.true_or, statements_repeatedPackage isMoved]
  rfl

end Parser

def Parser.Statement.package? : Parser.Statement → Option String
  | .package name => some name
  | _ => none

def Message.inPackage (package : String) (message : Message) : Message :=
  { message with fullName := qualify package message.name }

def Enumeration.inPackage (package : String) (enumeration : Enumeration) : Enumeration :=
  { enumeration with fullName := qualify package enumeration.name }

namespace SchemaFile

/-- What two files declare, the first before the second, in the package of the one that has one. -/
def merge (first second : SchemaFile) : SchemaFile :=
  let package := if first.package = "" then second.package else first.package
  { identifier := first.identifier
    syntaxVersion := second.syntaxVersion.or first.syntaxVersion
    package := package
    imports := first.imports ++ second.imports
    settings := first.settings ++ second.settings
    messages := (first.messages ++ second.messages).map (·.inPackage package)
    enumerations := (first.enumerations ++ second.enumerations).map (·.inPackage package) }

/-- No kind of statement is found in both files. -/
def Apart (first second : SchemaFile) : Prop :=
  (first.syntaxVersion = none ∨ second.syntaxVersion = none) ∧ (first.package = "" ∨ second.package = "") ∧
  (first.imports = [] ∨ second.imports = []) ∧ (first.settings = [] ∨ second.settings = []) ∧
  (first.messages = [] ∨ second.messages = []) ∧ (first.enumerations = [] ∨ second.enumerations = [])

theorem merge_comm {first second : SchemaFile} (same : first.identifier = second.identifier)
    (apart : first.Apart second) : second.merge first = first.merge second := by
  have commute {α : Type} {front back : List α} (one : front = [] ∨ back = []) : back ++ front = front ++ back := by
    rcases one with rfl | rfl <;> simp
  obtain ⟨version, package, imports, settings, messages, enumerations⟩ := apart
  have samePackage : (if second.package = "" then first.package else second.package) =
      if first.package = "" then second.package else first.package := by
    rcases package with empty | empty <;> simp only [empty, if_true] <;> split <;> simp_all
  have sameVersion : first.syntaxVersion.or second.syntaxVersion = second.syntaxVersion.or first.syntaxVersion := by
    rcases version with absent | absent <;> simp [absent]
  simp only [merge, same, samePackage, sameVersion, commute imports, commute settings, commute messages,
    commute enumerations]

theorem packageOf_eq (read : List Parser.Statement) :
    packageOf read = ((read.filterMap Parser.Statement.package?).getLast?).getD "" := rfl

theorem filterMap_package?_eq_nil_iff (read : List Parser.Statement) :
    read.filterMap Parser.Statement.package? = [] ↔ read.any (·.isPackage) = false := by
  rw [List.filterMap_eq_nil_iff, List.any_eq_false]
  refine forall₂_congr fun statement _ => ?_
  cases statement <;> simp [Parser.Statement.isPackage, Parser.Statement.package?]

theorem packageOf_eq_empty_iff {read : List Parser.Statement} (valid : ∀ statement ∈ read, statement.WellFormed) :
    packageOf read = "" ↔ read.any (·.isPackage) = false := by
  rw [← filterMap_package?_eq_nil_iff, packageOf_eq]
  constructor
  · intro empty
    cases last : (read.filterMap Parser.Statement.package?).getLast? with
    | none => exact List.getLast?_eq_none_iff.mp last
    | some name =>
      obtain ⟨statement, member, selected⟩ := List.mem_filterMap.mp (List.mem_of_getLast? last)
      cases statement <;> cases selected
      have reference : Name.isReference name.toList = true := valid _ member
      rw [last, Option.getD_some] at empty
      rw [empty] at reference
      cases reference
  · intro unpackaged
    rw [unpackaged]
    rfl

theorem packageOf_eq_empty_iff_of_tokenize {text : String} {tokens : List Token} (tokenized : tokenize text = .ok tokens)
    {read : List Parser.Statement} (parsed : Parser.statements false tokens = .ok read) :
    packageOf read = "" ↔ read.any (·.isPackage) = false :=
  packageOf_eq_empty_iff (Parser.statements_wellFormed (tokens_lawful tokenized) parsed)

theorem packageOf_append {first second : List Parser.Statement}
    (single : first.any (·.isPackage) = false ∨ second.any (·.isPackage) = false) :
    packageOf (first ++ second) = if packageOf first = "" then packageOf second else packageOf first := by
  have silent {read : List Parser.Statement} (names : read.filterMap Parser.Statement.package? = []) :
      packageOf read = "" := by
    rw [packageOf_eq, names]
    rfl
  rcases single with absent | absent
  · have names := (filterMap_package?_eq_nil_iff first).mpr absent
    rw [if_pos (silent names), packageOf_eq, List.filterMap_append, names, List.nil_append, ← packageOf_eq]
  · have names := (filterMap_package?_eq_nil_iff second).mpr absent
    rw [packageOf_eq (first ++ second), List.filterMap_append, names, List.append_nil, ← packageOf_eq, silent names]
    split
    · assumption
    · rfl

theorem ofStatements_append (identifier : Identifier) {first second : List Parser.Statement}
    (single : first.any (·.isPackage) = false ∨ second.any (·.isPackage) = false) :
    ofStatements identifier (first ++ second) = (ofStatements identifier first).merge (ofStatements identifier second) := by
  simp only [ofStatements, merge, packageOf_append single, List.filterMap_append, List.getLast?_append, List.map_append,
    List.map_filterMap]
  congr 4
  all_goals
    funext statement
    cases statement <;> rfl

theorem parse_append_feed_eq {identifier : Identifier} {first second : String} {firstTokens secondTokens : List Token}
    (readFirst : tokenize first = .ok firstTokens) (readSecond : tokenize second = .ok secondTokens)
    {earlier : List Parser.Statement} (parsed : Parser.statements false firstTokens = .ok earlier) :
    parse identifier (first ++ "\n" ++ second) =
      match Parser.statements (earlier.any (·.isPackage))
        (secondTokens.map (Token.down (first.toList.count '\n' + 1))) with
      | .ok later => .ok (ofStatements identifier (earlier ++ later))
      | .error failure => .error (failure.inSource identifier) := by
  rw [parse, tokenize_append_feed readFirst readSecond]
  simp only [ofTokens, Parser.statements_append parsed rfl, Bool.false_or]
  cases Parser.statements (earlier.any (·.isPackage)) _ <;> rfl

theorem parse_append_of_single {identifier : Identifier} {first second : String} {firstFile secondFile : SchemaFile}
    (parsedFirst : parse identifier first = .ok firstFile) (parsedSecond : parse identifier second = .ok secondFile)
    (single : firstFile.package = "" ∨ secondFile.package = "") :
    parse identifier (first ++ "\n" ++ second) = .ok (firstFile.merge secondFile) := by
  obtain ⟨firstTokens, earlier, readFirst, complete, rfl⟩ := parse_eq_ok_iff.mp parsedFirst
  obtain ⟨secondTokens, later, readSecond, completeSecond, rfl⟩ := parse_eq_ok_iff.mp parsedSecond
  have unpackaged : earlier.any (·.isPackage) = false ∨ later.any (·.isPackage) = false :=
    single.imp (packageOf_eq_empty_iff_of_tokenize readFirst complete).mp
      (packageOf_eq_empty_iff_of_tokenize readSecond completeSecond).mp
  have moved : Parser.statements (earlier.any (·.isPackage))
      (secondTokens.map (Token.down (first.toList.count '\n' + 1))) = .ok later := by
    have lower := Parser.statements_moved completeSecond (map_kind_down (first.toList.count '\n' + 1) secondTokens)
    rcases unpackaged with none | none
    · rw [none, lower]
    · exact Parser.statements_of_not_package lower none _
  rw [parse_append_feed_eq readFirst readSecond complete, moved]
  exact congrArg Except.ok (ofStatements_append identifier unpackaged)

/-- Two texts with a line feed between them are read as the merge of their files, unless both have a
package: then the second package statement is refused where it stands, which is as many lines further
down as the first text and the line feed take. Texts without a common kind of statement can be put in
either order. -/
theorem parse_append_feed {identifier : Identifier} {first second : String} {firstFile secondFile : SchemaFile}
    (parsedFirst : parse identifier first = .ok firstFile) (parsedSecond : parse identifier second = .ok secondFile) :
    (firstFile.package = "" ∨ secondFile.package = "" →
      parse identifier (first ++ "\n" ++ second) = .ok (firstFile.merge secondFile)) ∧
    (firstFile.package ≠ "" → secondFile.package ≠ "" →
      ∃ tokens keyword, tokenize second = .ok tokens ∧ Parser.OpensPackage tokens keyword ∧
        (∀ other, Parser.OpensPackage tokens other → other = keyword) ∧
        parse identifier (first ++ "\n" ++ second) = .error (.malformed identifier
          ⟨keyword.position.line + (first.toList.count '\n' + 1), keyword.position.column⟩ .repeatedPackage) ∧
        Malformation.repeatedPackage.message = "multiple package statements") ∧
    (firstFile.Apart secondFile →
      parse identifier (second ++ "\n" ++ first) = parse identifier (first ++ "\n" ++ second)) := by
  refine ⟨parse_append_of_single parsedFirst parsedSecond, ?_, ?_⟩
  · intro firstPackage secondPackage
    obtain ⟨firstTokens, earlier, readFirst, complete, rfl⟩ := parse_eq_ok_iff.mp parsedFirst
    obtain ⟨secondTokens, later, readSecond, completeSecond, rfl⟩ := parse_eq_ok_iff.mp parsedSecond
    have declaredFirst : earlier.any (·.isPackage) = true :=
      eq_true_of_ne_false (mt (packageOf_eq_empty_iff_of_tokenize readFirst complete).mpr firstPackage)
    have declaredSecond : later.any (·.isPackage) = true :=
      eq_true_of_ne_false (mt (packageOf_eq_empty_iff_of_tokenize readSecond completeSecond).mpr secondPackage)
    obtain ⟨keyword, opens⟩ := Parser.exists_opensPackage completeSecond declaredSecond
    have refused := Parser.statements_down_of_opensPackage completeSecond opens
    refine ⟨secondTokens, keyword, readSecond, opens, ?_, ?_, rfl⟩
    · intro other opensOther
      -- Both would be the place of the same failure.
      have same := (Parser.statements_down_of_opensPackage completeSecond opensOther 0).symm.trans (refused 0)
      have samePosition : other.position = keyword.position := (Failure.malformed.inj (Except.error.inj same)).1
      have sameKind : other.kind = keyword.kind := opensOther.1.trans opens.1.symm
      cases other
      cases keyword
      simp_all
    · rw [parse_append_feed_eq readFirst readSecond complete, declaredFirst, refused]
      rfl
  · intro apart
    have sameIdentifier : firstFile.identifier = secondFile.identifier :=
      (wellFormed_of_parse parsedFirst).1.trans (wellFormed_of_parse parsedSecond).1.symm
    have single : firstFile.package = "" ∨ secondFile.package = "" := apart.2.1
    rw [parse_append_of_single parsedFirst parsedSecond single,
      parse_append_of_single parsedSecond parsedFirst single.symm, merge_comm sameIdentifier apart]

/-- A comment that the first text leaves open ends at the line feed, and a field may be called
`package`. -/
theorem parse_append_feed_comment :
    let identifier : Identifier := .named "a"
    let message := "message M \x7b int32 package = 1; \x7d // M"
    let heading := "import 'x';\npackage p;"
    let other := "option o = 'v'\n'w';\n  package q;"
    parse identifier message = .ok
        ⟨identifier, none, "", [], [], [⟨"M", "M", [⟨"package", "int32", 1, .implicit⟩], []⟩], []⟩ ∧
      parse identifier (message ++ "\n" ++ heading) = .ok
        ⟨identifier, none, "p", ["x"], [], [⟨"M", "p.M", [⟨"package", "int32", 1, .implicit⟩], []⟩], []⟩ ∧
      parse identifier (heading ++ "\n" ++ message) = parse identifier (message ++ "\n" ++ heading) ∧
      parse identifier (heading ++ "\n" ++ other) = .error (.malformed identifier ⟨5, 3⟩ .repeatedPackage) := by
  intro identifier message heading other
  have parsedMessage : parse identifier message = .ok
      ⟨identifier, none, "", [], [], [⟨"M", "M", [⟨"package", "int32", 1, .implicit⟩], []⟩], []⟩ := by decide +kernel
  have parsedHeading : parse identifier heading = .ok ⟨identifier, none, "p", ["x"], [], [], []⟩ := by decide +kernel
  have parsedOther : parse identifier other = .ok ⟨identifier, none, "q", [], [⟨"o", "vw"⟩], [], []⟩ := by
    decide +kernel
  obtain ⟨merged, -, commute⟩ := parse_append_feed parsedMessage parsedHeading
  obtain ⟨-, refused, -⟩ := parse_append_feed parsedHeading parsedOther
  refine ⟨parsedMessage, merged (Or.inl rfl),
    commute ⟨Or.inl rfl, Or.inl rfl, Or.inl rfl, Or.inl rfl, Or.inr rfl, Or.inl rfl⟩, ?_⟩
  obtain ⟨tokens, keyword, read, -, unique, failed, -⟩ := refused (by decide) (by decide)
  have known : (tokenize other).toOption = some
      ([⟨.identifier "option", ⟨1, 1⟩⟩, ⟨.identifier "o", ⟨1, 8⟩⟩, ⟨.symbol '=', ⟨1, 10⟩⟩, ⟨.quoted "v", ⟨1, 12⟩⟩,
        ⟨.quoted "w", ⟨2, 1⟩⟩, ⟨.symbol ';', ⟨2, 4⟩⟩] ++
        ⟨.identifier "package", ⟨3, 3⟩⟩ :: [⟨.identifier "q", ⟨3, 11⟩⟩, ⟨.symbol ';', ⟨3, 12⟩⟩]) := by decide +kernel
  rw [read] at known
  have found := unique ⟨.identifier "package", ⟨3, 3⟩⟩
    ⟨rfl, _, _, [.setting ⟨"o", "vw"⟩], Option.some.inj known, by decide +kernel⟩
  have feeds : heading.toList.count '\n' = 1 := by decide +kernel
  rw [failed, ← found, feeds]

end SchemaFile

end SchemaMarshal
