import SchemaMarshal.Proofs.Grammar

/-! Text that spells tokens of given kinds, wherever it stands.

`Spells` leaves the positions of tokens open and is built up from the end of a text: one lemma for
each kind of token says which text in front adds it.
-/

set_option autoImplicit false

namespace SchemaMarshal

theorem Cursor.tokens_eq (cursor : Cursor) :
    cursor.tokens = match cursor.next with
      | (.finished, _) => .ok []
      | (.fault position cause, _) => .error ⟨position, cause⟩
      | (.token token, after) =>
          match after.tokens with
          | .ok tokens => .ok (token :: tokens)
          | .error error => .error error := by
  rw [tokens]
  split
  · rename_i pulled
    simp only [pulled]
  · rename_i pulled
    simp only [pulled]
  · rename_i token after pulled
    cases read : after.tokens <;> simp only [pulled, read]

/-- Whatever its position, the text is read as tokens of these kinds. -/
def Spells (text : List Char) (kinds : List Token.Kind) : Prop :=
  ∀ position, ∃ tokens, Cursor.tokens ⟨position, text⟩ = .ok tokens ∧ tokens.map (·.kind) = kinds

theorem spells_nil : Spells [] [] := by
  intro position
  refine ⟨[], ?_, rfl⟩
  rw [Cursor.tokens_eq]
  rfl

/-- The text ends or goes on with something that belongs to no word. -/
def Breaks (text : List Char) : Prop := ∀ c ∈ text.head?, Lexeme.isWordPart c = false

theorem breaks_cons {c : Char} {text : List Char} (outside : Lexeme.isWordPart c = false) : Breaks (c :: text) := by
  intro other member
  cases member
  exact outside

theorem takeWhile_word {word rest : List Char} (parts : ∀ c ∈ word, Lexeme.isWordPart c = true)
    (breaks : Breaks rest) : (word ++ rest).takeWhile Lexeme.isWordPart = word := by
  rw [List.takeWhile_append_of_pos parts]
  cases rest with
  | nil => simp
  | cons c rest => rw [List.takeWhile_cons_of_neg (by simp [breaks c rfl]), List.append_nil]

theorem dropWhile_word {word rest : List Char} (parts : ∀ c ∈ word, Lexeme.isWordPart c = true)
    (breaks : Breaks rest) : (word ++ rest).dropWhile Lexeme.isWordPart = rest := by
  rw [List.dropWhile_append_of_pos parts]
  cases rest with
  | nil => rfl
  | cons c rest => rw [List.dropWhile_cons_of_neg (by simp [breaks c rfl])]

theorem skip_blank {c : Char} (blank : Text.isBlank c = true) (position : Position) (rest : List Char) :
    Trivia.skip .between position (c :: rest) = Trivia.skip .between (position.advance c) rest := by
  have slash : c ≠ '/' := by
    rintro rfl
    revert blank
    decide
  rw [Trivia.skip]
  · rw [if_pos blank]
  · intro _ same
    exact absurd same slash
  · intro _ same
    exact absurd same slash

theorem skip_solid {c : Char} (solid : Text.isBlank c = false) (slash : c ≠ '/') (position : Position)
    (rest : List Char) : Trivia.skip .between position (c :: rest) = .clear position (c :: rest) := by
  rw [Trivia.skip]
  · simp [solid]
  · intro _ same
    exact absurd same slash
  · intro _ same
    exact absurd same slash

theorem spells_blank {c : Char} (blank : Text.isBlank c = true) {rest : List Char} {kinds : List Token.Kind}
    (later : Spells rest kinds) : Spells (c :: rest) kinds := by
  intro position
  have same : Cursor.next ⟨position, c :: rest⟩ = Cursor.next ⟨position.advance c, rest⟩ := by
    simp only [Cursor.next, skip_blank blank]
  obtain ⟨tokens, read, sameKinds⟩ := later (position.advance c)
  refine ⟨tokens, ?_, sameKinds⟩
  rw [Cursor.tokens_eq] at read ⊢
  rw [same]
  exact read

theorem spells_token {head : Char} {tail lexeme rest : List Char} {kind : Token.Kind} {kinds : List Token.Kind}
    (solid : Text.isBlank head = false) (slash : head ≠ '/')
    (scanned : Lexeme.scan head tail = .token kind lexeme rest) (later : Spells rest kinds) :
    Spells (head :: tail) (kind :: kinds) := by
  intro position
  obtain ⟨tokens, read, sameKinds⟩ := later (position.after lexeme)
  refine ⟨⟨kind, position⟩ :: tokens, ?_, by simp [sameKinds]⟩
  rw [Cursor.tokens_eq]
  simp only [Cursor.next, skip_solid solid slash, scanned, read]

theorem isAlpha_iff_toNat {c : Char} :
    c.isAlpha = true ↔ (65 ≤ c.toNat ∧ c.toNat ≤ 90) ∨ (97 ≤ c.toNat ∧ c.toNat ≤ 122) := by
  have ranges : c.isAlpha = (decide (65 ≤ c.val ∧ c.val ≤ 90) || (decide (97 ≤ c.val) && decide (c.val ≤ 122))) := rfl
  rw [ranges]
  simp only [Bool.or_eq_true, Bool.and_eq_true, decide_eq_true_eq, UInt32.le_iff_toNat_le]
  rfl

theorem not_isBlank_of_isWordPart {c : Char} (part : Lexeme.isWordPart c = true) : Text.isBlank c = false := by
  simp only [Lexeme.isWordPart, Char.isAlphanum, Bool.or_eq_true, decide_eq_true_eq, isAlpha_iff_toNat] at part
  rcases part with (letter | digit) | underscore
  · simp [Text.isBlank, Text.blankRanges]
    omega
  · have range : 48 ≤ c.toNat ∧ c.toNat ≤ 57 := Char.isDigit_iff_toNat.mp digit
    simp [Text.isBlank, Text.blankRanges]
    omega
  · subst underscore
    decide

theorem slash_ne_of_isWordPart {c : Char} (part : Lexeme.isWordPart c = true) : c ≠ '/' := by
  rintro rfl
  revert part
  decide

theorem spells_word {word rest : List Char} (valid : Name.isWord word = true) (breaks : Breaks rest)
    {kinds : List Token.Kind} (later : Spells rest kinds) :
    Spells (word ++ rest) (.identifier (String.ofList word) :: kinds) := by
  have parts := Name.isWordPart_of_mem valid
  cases word with
  | nil => cases valid
  | cons head tail =>
    have letter : Lexeme.isLetter head = true := by
      simp only [Name.isWord, Bool.and_eq_true] at valid
      exact valid.1
    have part := parts head (by simp)
    have taken := takeWhile_word parts breaks
    have left := dropWhile_word parts breaks
    rw [List.cons_append] at taken left ⊢
    have scanned : Lexeme.scan head (tail ++ rest) =
        .token (.identifier (String.ofList (head :: tail))) (head :: tail) rest := by
      rw [Lexeme.scan, if_pos letter]
      simp only [taken, left]
    exact spells_token (not_isBlank_of_isWordPart part) (slash_ne_of_isWordPart part) scanned later

theorem spells_symbol {c : Char} (listed : c ∈ Lexeme.symbols) {rest : List Char} {kinds : List Token.Kind}
    (later : Spells rest kinds) : Spells (c :: rest) (.symbol c :: kinds) := by
  have plain : (Lexeme.symbols.all fun c => !Text.isBlank c && c ≠ '/' && !Lexeme.isLetter c && !c.isDigit &&
      !(c = '"' || c = '\'')) = true := by decide
  have this := List.all_eq_true.mp plain c listed
  simp only [Bool.and_eq_true, Bool.not_eq_true', decide_eq_true_eq] at this
  obtain ⟨⟨⟨⟨solid, slash⟩, notLetter⟩, notDigit⟩, notQuote⟩ := this
  have scanned : Lexeme.scan c rest = .token (.symbol c) [c] rest := by
    simp only [Lexeme.scan, notLetter, notDigit, notQuote, Bool.false_eq_true, if_false]
    rw [if_pos (List.contains_iff_mem.mpr listed)]
  exact spells_token solid slash scanned later

theorem isWordPart_of_isDigit {c : Char} (digit : c.isDigit = true) : Lexeme.isWordPart c = true := by
  simp [Lexeme.isWordPart, Char.isAlphanum, digit]

theorem not_isLetter_of_isDigit {c : Char} (digit : c.isDigit = true) : Lexeme.isLetter c = false := by
  have range : 48 ≤ c.toNat ∧ c.toNat ≤ 57 := Char.isDigit_iff_toNat.mp digit
  rw [← Bool.not_eq_true, Lexeme.isLetter, Bool.or_eq_true, isAlpha_iff_toNat, decide_eq_true_eq]
  intro letter
  rcases letter with alpha | rfl
  · omega
  · revert range
    decide

theorem scanNumber_digits {digits rest : List Char} (decimal : ∀ c ∈ digits, c.isDigit = true)
    (breaks : Breaks rest) (point : rest.head? ≠ some '.') :
    Lexeme.scanNumber (digits ++ rest) = .token (.integer (String.ofList digits)) digits rest := by
  have parts : ∀ c ∈ digits, Lexeme.isWordPart c = true :=
    fun c member => isWordPart_of_isDigit (decimal c member)
  have noMark : digits.any Lexeme.isExponentMark = false := by
    rw [List.any_eq_false]
    intro c member mark
    simp only [Lexeme.isExponentMark, Bool.or_eq_true, decide_eq_true_eq] at mark
    have digit := decimal c member
    rcases mark with rfl | rfl <;> revert digit <;> decide
  have whole : Lexeme.splitFraction rest = ([], rest) := by
    unfold Lexeme.splitFraction
    split
    · exact absurd rfl point
    · rfl
  unfold Lexeme.scanNumber
  simp only [takeWhile_word parts breaks, dropWhile_word parts breaks, whole, noMark]
  split <;> rfl

theorem spells_digits (number : Nat) {rest : List Char} (breaks : Breaks rest) (point : rest.head? ≠ some '.')
    {kinds : List Token.Kind} (later : Spells rest kinds) :
    Spells (Nat.toDigits 10 number ++ rest) (.integer (String.ofList (Nat.toDigits 10 number)) :: kinds) := by
  have decimal : ∀ c ∈ Nat.toDigits 10 number, c.isDigit = true :=
    fun c member => Nat.isDigit_of_mem_toDigits (by decide) (by decide) member
  have scanned := scanNumber_digits decimal breaks point
  -- The first digit decides which scan is used, so the digits are taken apart.
  cases digits : Nat.toDigits 10 number with
  | nil => exact absurd digits Nat.toDigits_ne_nil
  | cons head tail =>
    rw [digits] at decimal scanned
    have digit := decimal head (by simp)
    have part := isWordPart_of_isDigit digit
    apply spells_token (not_isBlank_of_isWordPart part) (slash_ne_of_isWordPart part) _ later
    · exact head :: tail
    · simp only [Lexeme.scan, not_isLetter_of_isDigit digit, digit, Bool.false_eq_true, if_false, if_true]
      exact scanned

def escape : Char → List Char
  | '\\' => ['\\', '\\']
  | '"' => ['\\', '"']
  | '\n' => ['\\', 'n']
  | c => [c]

theorem scanQuoted_escape (c : Char) (rest : List Char) :
    Lexeme.scanQuoted '"' (escape c ++ rest) = (Lexeme.scanQuoted '"' rest).cons (escape c) c := by
  unfold escape
  split
  · rfl
  · rfl
  · rfl
  · rename_i slash quote feed
    rw [List.singleton_append, Lexeme.scanQuoted]
    · rw [if_neg quote, if_neg feed]
    · intro same _
      exact slash same
    · intro _ _ same _
      exact slash same

theorem scanQuoted_flatMap_escape (value rest : List Char) :
    Lexeme.scanQuoted '"' (value.flatMap escape ++ '"' :: rest) =
      .closed value (value.flatMap escape ++ ['"']) rest := by
  induction value with
  | nil => rfl
  | cons c value ih => simp [scanQuoted_escape, ih, Lexeme.Quoted.cons]

theorem spells_literal (value : String) {rest : List Char} {kinds : List Token.Kind} (later : Spells rest kinds) :
    Spells ('"' :: (value.toList.flatMap escape ++ '"' :: rest)) (.quoted value :: kinds) := by
  apply spells_token (by decide) (by decide) _ later
  · exact '"' :: (value.toList.flatMap escape ++ ['"'])
  · simp [Lexeme.scan, Lexeme.isLetter, Lexeme.scanString, scanQuoted_flatMap_escape]

namespace Name

/-- Put a word, if there is one, before the tokens that follow it. -/
def close : List Char × List Token.Kind → List Token.Kind
  | ([], kinds) => kinds
  | (word, kinds) => .identifier (String.ofList word) :: kinds

/-- The word at the front of a name, which may be missing, and the tokens after it. -/
def runs : List Char → List Char × List Token.Kind
  | [] => ([], [])
  | c :: rest =>
      if Lexeme.isWordPart c then (c :: (runs rest).1, (runs rest).2)
      else ([], .symbol c :: close (runs rest))

/-- The tokens of a name: its words, and a symbol for each character between them. -/
def kinds (name : List Char) : List Token.Kind := close (runs name)

theorem kinds_symbol {c : Char} (outside : Lexeme.isWordPart c = false) (name : List Char) :
    kinds (c :: name) = .symbol c :: kinds name := by
  rw [kinds, runs, if_neg (by simp [outside])]
  rfl

theorem runs_of_breaks {name : List Char} (breaks : Breaks name) : runs name = ([], kinds name) := by
  cases name with
  | nil => rfl
  | cons c name => rw [kinds, runs, if_neg (by simp [breaks c rfl]), close]

theorem close_append (word : List Char) (first second : List Token.Kind) :
    close (word, first ++ second) = close (word, first) ++ second := by
  cases word <;> rfl

-- A break is where no word goes on, so the tokens before it do not depend on what comes after.
theorem runs_append (name : List Char) {later : List Char} (breaks : Breaks later) :
    runs (name ++ later) = ((runs name).1, (runs name).2 ++ kinds later) := by
  induction name with
  | nil => exact runs_of_breaks breaks
  | cons c name ih =>
    rw [List.cons_append, runs, runs, ih]
    split
    · rfl
    · rw [close_append]
      rfl

theorem kinds_append (name : List Char) {later : List Char} (breaks : Breaks later) :
    kinds (name ++ later) = kinds name ++ kinds later := by
  rw [kinds, runs_append name breaks, close_append]
  rfl

theorem kinds_word {word : List Char} (valid : isWord word = true) :
    kinds word = [.identifier (String.ofList word)] := by
  have whole : ∀ name : List Char, (∀ c ∈ name, Lexeme.isWordPart c = true) → runs name = (name, []) := by
    intro name parts
    induction name with
    | nil => rfl
    | cons c name ih =>
      rw [runs, if_pos (parts c (by simp)), ih fun other member => parts other (List.mem_cons_of_mem _ member)]
  rw [kinds, whole word (isWordPart_of_mem valid)]
  cases word with
  | nil => cases valid
  | cons head tail => rfl

theorem breaks_continuation (words : List (List Char)) : Breaks (continuation words) := by
  cases words with
  | nil => exact fun _ absent => nomatch absent
  | cons word words => exact breaks_cons (by decide)

theorem kinds_continuation {words : List (List Char)} (valid : ∀ word ∈ words, isWord word = true) :
    kinds (continuation words) =
      words.flatMap fun word => [.symbol '.', .identifier (String.ofList word)] := by
  induction words with
  | nil => rfl
  | cons word words ih =>
    rw [show continuation (word :: words) = '.' :: (word ++ continuation words) from rfl,
      kinds_symbol (by decide), kinds_append word (breaks_continuation words), kinds_word (valid word (by simp)),
      ih fun other member => valid other (List.mem_cons_of_mem _ member)]
    rfl

theorem kinds_path {first : List Char} {others : List (List Char)}
    (valid : ∀ word ∈ first :: others, isWord word = true) :
    kinds (first ++ continuation others) =
      .identifier (String.ofList first) :: kinds (continuation others) := by
  rw [kinds_append first (breaks_continuation others), kinds_word (valid first (by simp))]
  rfl

def Spelled (name : List Char) : Prop :=
  ∀ ⦃rest : List Char⦄ ⦃later : List Token.Kind⦄, Breaks rest → Spells rest later →
    Spells (name ++ rest) (kinds name ++ later)

theorem spelled_nil : Spelled [] := fun _ _ _ later => later

theorem spelled_word {word : List Char} (valid : isWord word = true) : Spelled word := by
  intro rest later breaks spells
  rw [kinds_word valid]
  exact spells_word valid breaks spells

theorem Spelled.symbol {c : Char} {name : List Char} (spelled : Spelled name) (listed : c ∈ Lexeme.symbols) :
    Spelled (c :: name) := by
  have outside : (Lexeme.symbols.all fun c => !Lexeme.isWordPart c) = true := by decide
  intro rest later breaks spells
  rw [kinds_symbol ((Bool.not_eq_true' _).mp (List.all_eq_true.mp outside c listed))]
  exact spells_symbol listed (spelled breaks spells)

theorem Spelled.append {name following : List Char} (first : Spelled name) (second : Spelled following)
    (between : Breaks following) : Spelled (name ++ following) := by
  intro rest later breaks spells
  have inner : Breaks (following ++ rest) := by
    cases following with
    | nil => exact breaks
    | cons c _ => exact breaks_cons (between c rfl)
  rw [kinds_append name between, List.append_assoc, List.append_assoc]
  exact first inner (second breaks spells)

theorem spelled_continuation {words : List (List Char)} (valid : ∀ word ∈ words, isWord word = true) :
    Spelled (continuation words) := by
  induction words with
  | nil => exact spelled_nil
  | cons word words ih =>
    have later := ih fun other member => valid other (List.mem_cons_of_mem _ member)
    exact ((spelled_word (valid word (by simp))).append later (breaks_continuation words)).symbol (by decide)

theorem spelled_path {path : List Char} (valid : isPath path = true) : Spelled path := by
  obtain ⟨first, others, words, rfl⟩ := isPath_iff.mp valid
  have later := spelled_continuation fun word member => words word (List.mem_cons_of_mem _ member)
  exact (spelled_word (words first (by simp))).append later (breaks_continuation others)

theorem spelled_reference {reference : List Char} (valid : isReference reference = true) : Spelled reference := by
  rcases isReference_iff.mp valid with path | ⟨path, valid, rfl⟩
  · exact spelled_path path
  · exact (spelled_path valid).symbol (by decide)

theorem spelled_settingName {name : List Char} (valid : isSettingName name = true) : Spelled name := by
  rcases isSettingName_iff.mp valid with path | ⟨reference, words, extension, wordsValid, rfl⟩
  · exact spelled_path path
  · have tail := (spelled_continuation wordsValid).symbol (show ')' ∈ Lexeme.symbols by decide)
    exact ((spelled_reference extension).append tail (breaks_cons (by decide))).symbol (by decide)

end Name

end SchemaMarshal
