import SchemaMarshal.Proofs.Concatenation

/-! Layout carries no meaning.

A text is made of the letters of its tokens and of trivia around them. Other blanks and comments may
stand there instead: each token keeps its letters and its kind, and parsing looks at nothing else.
-/

set_option autoImplicit false

namespace SchemaMarshal

namespace Cursor

/-- The letters of one token after another, up to the end or the first fault. -/
def lexemes (cursor : Cursor) : List (List Char) :=
  match skipped : Trivia.skip .between cursor.position cursor.rest with
  | .openComment _ _ => []
  | .clear _ [] => []
  | .clear position (head :: tail) =>
      match scanned : Lexeme.scan head tail with
      | .fault _ _ _ => []
      | .token _ lexeme rest =>
          have := Nat.lt_of_lt_of_le (Lexeme.scan_length_lt scanned) (Trivia.skip_length_le skipped)
          lexeme :: lexemes ⟨position.after lexeme, rest⟩
termination_by cursor.rest.length
decreasing_by exact this

theorem lexemes_eq (cursor : Cursor) :
    cursor.lexemes = match Trivia.skip .between cursor.position cursor.rest with
      | .openComment _ _ => []
      | .clear _ [] => []
      | .clear position (head :: tail) =>
          match Lexeme.scan head tail with
          | .fault _ _ _ => []
          | .token _ lexeme rest => lexeme :: lexemes ⟨position.after lexeme, rest⟩ := by
  rw [lexemes]
  split
  · rename_i skipped
    simp only [skipped]
  · rename_i skipped
    simp only [skipped]
  · rename_i position head tail skipped
    split
    · rename_i scanned
      simp only [skipped, scanned]
    · rename_i scanned
      simp only [skipped, scanned]

theorem lexemes_lexeme {gap tail lexeme rest : List Char} {head : Char} {kind : Token.Kind} (isGap : Trivia.Gap gap)
    (scanned : Lexeme.scan head tail = .token kind lexeme rest) (position : Position) :
    lexemes ⟨position, gap ++ head :: tail⟩ = lexeme :: lexemes ⟨(position.after gap).after lexeme, rest⟩ := by
  obtain ⟨solid, slash⟩ := Lexeme.solid_of_scan scanned
  rw [lexemes_eq]
  simp only [Trivia.skip_gap isGap, skip_solid solid slash, scanned]

theorem lexemes_closing {text : List Char} (closing : Trivia.Closing text) (position : Position) :
    lexemes ⟨position, text⟩ = [] := by
  rw [lexemes_eq]
  rcases closing with isGap | ⟨gap, body, isGap, single, rfl⟩
  · rw [← List.append_nil text, Trivia.skip_gap isGap, Trivia.skip]
  · simp only [Trivia.skip_gap isGap, Trivia.skip_openLine single]

end Cursor

/-- The lexemes in turn, each behind its gap, and `last` behind them all. -/
def laidOut (gaps lexemes : List (List Char)) (last : List Char) : List Char :=
  (List.zipWith (· ++ ·) gaps lexemes).flatten ++ last

@[simp] theorem laidOut_nil (last : List Char) : laidOut [] [] last = last := rfl

@[simp] theorem laidOut_cons (gap lexeme : List Char) (gaps lexemes : List (List Char)) (last : List Char) :
    laidOut (gap :: gaps) (lexeme :: lexemes) last = gap ++ (lexeme ++ laidOut gaps lexemes last) := by
  simp [laidOut]

theorem Trivia.Gap.isApart_of_head {gap : List Char} (isGap : Gap gap) {c : Char} (first : gap.head? = some c) :
    Lexeme.isApart c = true := by
  cases isGap with
  | nil => cases first
  | blank isBlank _ =>
    cases first
    simp [Lexeme.isApart, isBlank]
  | line _ _ | block _ _ =>
    cases first
    decide

theorem Trivia.Closing.isApart_of_head {text : List Char} (closing : Closing text) {c : Char}
    (first : text.head? = some c) : Lexeme.isApart c = true := by
  rcases closing with isGap | ⟨gap, body, isGap, -, rfl⟩
  · exact isGap.isApart_of_head first
  · cases gap with
    | nil =>
      cases first
      decide
    | cons head gap => exact isGap.isApart_of_head first

/-- Laid out text may stand behind any token, since it begins with trivia or is empty. -/
theorem replaces_laidOut {gaps lexemes : List (List Char)} {last : List Char}
    (apart : ∀ gap ∈ gaps, Trivia.Gap gap ∧ gap ≠ []) (length : gaps.length = lexemes.length)
    (closing : Trivia.Closing last) (rest : List Char) : Lexeme.Replaces (laidOut gaps lexemes last) rest := by
  intro c first
  right
  cases gaps with
  | nil =>
    rw [List.length_eq_zero_iff.mp length.symm] at first
    exact closing.isApart_of_head first
  | cons gap gaps =>
    obtain ⟨isGap, present⟩ := apart gap (by simp)
    cases lexemes with
    | nil => cases length
    | cons lexeme lexemes =>
      cases gap with
      | nil => exact absurd rfl present
      | cons head gap => exact isGap.isApart_of_head first

/-- A text that is read consists of its lexemes and trivia, and each lexeme is by itself a token of
its kind. -/
theorem Cursor.Reads.lexemes_laidOut {cursor : Cursor} {tokens : List Token} (reads : Reads cursor tokens) :
    List.Forall₂ (fun lexeme token => tokenize (String.ofList lexeme) = .ok [⟨token.kind, .start⟩])
      cursor.lexemes tokens ∧
    ∃ gaps last, gaps.length = cursor.lexemes.length ∧ (∀ gap ∈ gaps, Trivia.Gap gap) ∧ Trivia.Closing last ∧
      cursor.rest = laidOut gaps cursor.lexemes last := by
  induction reads with
  | finished position closing =>
    rw [lexemes_closing closing]
    exact ⟨.nil, [], _, rfl, by simp, closing, (laidOut_nil _).symm⟩
  | @token gap inner rest head kind tokens position isGap kept _ ih =>
    obtain ⟨alone, gaps, last, length, areGaps, closing, whole⟩ := ih
    have single := kept [] (.nil rest)
    rw [List.append_nil] at single
    rw [lexemes_lexeme isGap (kept rest fun c first => Or.inl first)]
    refine ⟨.cons (tokenize_lexeme single) alone, gap :: gaps, last, by simp [length],
      List.forall_mem_cons.mpr ⟨isGap, areGaps⟩, closing, ?_⟩
    rw [laidOut_cons, ← whole]
    rfl

theorem spells_gap {gap rest : List Char} {kinds : List Token.Kind} (isGap : Trivia.Gap gap)
    (later : Spells rest kinds) : Spells (gap ++ rest) kinds := by
  intro position
  rw [Cursor.tokens_gap isGap]
  exact later (position.after gap)

theorem Cursor.Reads.spells_laidOut {cursor : Cursor} {tokens : List Token} (reads : Reads cursor tokens)
    {gaps : List (List Char)} (length : gaps.length = cursor.lexemes.length)
    (apart : ∀ gap ∈ gaps, Trivia.Gap gap ∧ gap ≠ []) {last : List Char} (closing : Trivia.Closing last) :
    Spells (laidOut gaps cursor.lexemes last) (tokens.map (·.kind)) := by
  induction reads generalizing gaps with
  | finished position ended =>
    rw [lexemes_closing ended] at length ⊢
    rw [List.length_eq_zero_iff.mp length, laidOut_nil]
    exact fun position => ⟨[], tokens_closing closing position, rfl⟩
  | @token gap inner rest head kind tokens position isGap kept _ ih =>
    rw [lexemes_lexeme isGap (kept rest fun c first => Or.inl first)] at length ⊢
    cases gaps with
    | nil => cases length
    | cons other gaps =>
      rw [List.forall_mem_cons] at apart
      have shorter := Nat.succ.inj length
      -- The text behind the token is new, but it begins with trivia, so the token ends where it did.
      have scanned := kept _ (replaces_laidOut apart.2 shorter closing rest)
      obtain ⟨solid, slash⟩ := Lexeme.solid_of_scan scanned
      rw [laidOut_cons]
      exact spells_gap apart.1.1 (spells_token solid slash scanned (ih shorter apart.2))

theorem SchemaFile.parse_of_kinds {first second : String} {firstTokens secondTokens : List Token}
    (readFirst : tokenize first = .ok firstTokens) (readSecond : tokenize second = .ok secondTokens)
    (same : secondTokens.map (·.kind) = firstTokens.map (·.kind)) {identifier : Identifier} {file : SchemaFile}
    (parsed : parse identifier first = .ok file) : parse identifier second = .ok file := by
  obtain ⟨tokens, statements, read, complete, rfl⟩ := parse_eq_ok_iff.mp parsed
  rw [readFirst] at read
  cases read
  exact parse_eq_ok_iff.mpr ⟨secondTokens, statements, readSecond, Parser.statements_moved complete same, rfl⟩

/-- A text that can be read is its lexemes with trivia around them. With any other trivia between
them, if only there is some, the same kinds of token are read in the same order, and so the same file. -/
theorem tokenize_laidOut {text : String} {tokens : List Token} (read : tokenize text = .ok tokens) :
    let lexemes := (Cursor.ofText text).lexemes
    List.Forall₂ (fun lexeme token => tokenize (String.ofList lexeme) = .ok [⟨token.kind, .start⟩]) lexemes tokens ∧
    (∃ gaps last, gaps.length = lexemes.length ∧ (∀ gap ∈ gaps, Trivia.Gap gap) ∧ Trivia.Closing last ∧
      text.toList = laidOut gaps lexemes last) ∧
    ∀ gaps last, gaps.length = lexemes.length → (∀ gap ∈ gaps, Trivia.Gap gap ∧ gap ≠ []) → Trivia.Closing last →
      (∃ moved, tokenize (String.ofList (laidOut gaps lexemes last)) = .ok moved ∧
        moved.map (·.kind) = tokens.map (·.kind)) ∧
      ∀ identifier file, SchemaFile.parse identifier (String.ofList (laidOut gaps lexemes last)) = .ok file ↔
        SchemaFile.parse identifier text = .ok file := by
  intro lexemes
  have reads := Cursor.reads_of_tokens read
  obtain ⟨alone, whole⟩ := reads.lexemes_laidOut
  refine ⟨alone, whole, ?_⟩
  intro gaps last length apart closing
  obtain ⟨moved, readMoved, same⟩ := reads.spells_laidOut length apart closing .start
  have again : tokenize (String.ofList (laidOut gaps lexemes last)) = .ok moved := by
    rw [tokenize, Cursor.ofText, String.toList_ofList]
    exact readMoved
  refine ⟨⟨moved, again, same⟩, ?_⟩
  intro identifier file
  exact ⟨SchemaFile.parse_of_kinds again read same.symm, SchemaFile.parse_of_kinds read again same⟩

/-- The literals touch in the one text and have a comment with a quote between them in the other. -/
theorem tokenize_laidOut_adjacent :
    let text := "option o='a''b';"
    let other := "/***/option o//'\n=\t'a'/*'*/'b' ;// end"
    let kinds : List Token.Kind :=
      [.identifier "option", .identifier "o", .symbol '=', .quoted "a", .quoted "b", .symbol ';']
    let file : SchemaFile := ⟨.named "a", none, "", [], [⟨"o", "ab"⟩], [], []⟩
    ∃ tokens moved, tokenize text = .ok tokens ∧ tokens.map (·.kind) = kinds ∧ tokenize other = .ok moved ∧
      moved.map (·.kind) = kinds ∧ SchemaFile.parse (.named "a") other = .ok file := by
  intro text other kinds file
  let tokens : List Token := List.zipWith Token.mk kinds [⟨1, 1⟩, ⟨1, 8⟩, ⟨1, 9⟩, ⟨1, 10⟩, ⟨1, 13⟩, ⟨1, 16⟩]
  let gaps : List (List Char) := [['/', '*', '*', '*', '/'], [' '], ['/', '/', '\'', '\n'], ['\t'],
    ['/', '*', '\'', '*', '/'], [' ']]
  let last : List Char := ['/', '/', ' ', 'e', 'n', 'd']
  have read : tokenize text = .ok tokens := by decide +kernel
  have parsed : SchemaFile.parse (.named "a") text = .ok file := by decide +kernel
  have length : gaps.length = (Cursor.ofText text).lexemes.length := by decide +kernel
  have woven : String.ofList (laidOut gaps (Cursor.ofText text).lexemes last) = other := by decide +kernel
  have apart : ∀ gap ∈ gaps, Trivia.Gap gap ∧ gap ≠ [] := by
    simp only [gaps, List.forall_mem_cons]
    refine ⟨⟨@Trivia.Gap.block ['*'] [] ?_ .nil, ?_⟩, ⟨.blank ?_ .nil, ?_⟩, ⟨@Trivia.Gap.line ['\''] [] ?_ .nil, ?_⟩,
      ⟨.blank ?_ .nil, ?_⟩, ⟨@Trivia.Gap.block ['\''] [] ?_ .nil, ?_⟩, ⟨.blank ?_ .nil, ?_⟩, List.forall_mem_nil _⟩
    all_goals decide
  have closing : Trivia.Closing last := Or.inr ⟨[], [' ', 'e', 'n', 'd'], .nil, by decide, rfl⟩
  obtain ⟨⟨moved, again, same⟩, files⟩ := (tokenize_laidOut read).2.2 gaps last length apart closing
  rw [woven] at again files
  exact ⟨tokens, moved, read, rfl, again, same, (files _ _).mpr parsed⟩

end SchemaMarshal
