import SchemaMarshal.Proofs.Spelling

/-! A token depends on its own letters and on no more than one character after them.

`Replaces` says what may take the place of the text behind a token: nothing, a blank, the slash of a
comment, or text with the same first character. Each scan is shown to split its input and to come out
the same before any such text.
-/

set_option autoImplicit false

namespace SchemaMarshal.Lexeme

/-- A character that ends every token: a blank, or the slash that begins a comment. -/
def isApart (c : Char) : Bool := Text.isBlank c || c = '/'

/-- Whatever token `rest` stands behind, `other` may stand there as well. -/
def Replaces (other rest : List Char) : Prop := ∀ c ∈ other.head?, rest.head? = some c ∨ isApart c = true

theorem Replaces.nil (rest : List Char) : Replaces [] rest := fun _ absent => nomatch absent

theorem Replaces.apart {c : Char} (apart : isApart c = true) (tail rest : List Char) : Replaces (c :: tail) rest := by
  intro first head
  cases head
  exact Or.inr apart

theorem Replaces.append_left {other rest : List Char} (replaces : Replaces other rest) (front : List Char) :
    Replaces (front ++ other) (front ++ rest) := by
  cases front with
  | nil => exact replaces
  | cons head front => exact fun c first => Or.inl first

theorem Replaces.append_right {c : Char} (apart : isApart c = true) (rest tail : List Char) :
    Replaces (rest ++ c :: tail) rest := by
  cases rest with
  | nil => exact .apart apart tail []
  | cons head rest => exact fun first found => Or.inl found

theorem isApart_of_isWordPart {c : Char} (part : isWordPart c = true) : isApart c = false := by
  simp [isApart, not_isBlank_of_isWordPart part, slash_ne_of_isWordPart part]

/-- What replaces text without `mark` in front has no `mark` in front either. -/
theorem Replaces.head?_ne {other rest : List Char} (replaces : Replaces other rest) {mark : Char}
    (close : isApart mark = false) (absent : rest.head? ≠ some mark) : other.head? ≠ some mark := by
  intro head
  rcases replaces mark head with same | apart
  · exact absent same
  · rw [close] at apart
    cases apart

/-- Nothing is lost, and what is split off stays the same before a replacement of the rest. -/
def Splits (split : List Char → List Char × List Char) : Prop :=
  ∀ input, input = (split input).1 ++ (split input).2 ∧
    ∀ other, Replaces other (split input).2 → split ((split input).1 ++ other) = ((split input).1, other)

theorem splits_while {p : Char → Bool} (close : ∀ c, p c = true → isWordPart c = true) :
    Splits fun input => (input.takeWhile p, input.dropWhile p) := by
  intro input
  refine ⟨List.takeWhile_append_dropWhile.symm, fun other replaces => ?_⟩
  have inside : ∀ c ∈ input.takeWhile p, p c = true := List.all_eq_true.mp List.all_takeWhile
  have boundary : ∀ c ∈ other.head?, p c = false := by
    intro c first
    rw [← Bool.not_eq_true]
    intro holds
    rcases replaces c first with same | apart
    · have stopped := List.head?_dropWhile_not p input
      rw [same] at stopped
      simp [holds] at stopped
    · rw [isApart_of_isWordPart (close c holds)] at apart
      cases apart
  simp only [List.takeWhile_append_of_pos inside, List.dropWhile_append_of_pos inside]
  cases other with
  | nil => simp
  | cons c other => simp [boundary c rfl]

theorem splits_word : Splits fun input => (input.takeWhile isWordPart, input.dropWhile isWordPart) :=
  splits_while fun _ part => part

theorem isWordPart_of_isAlphanum {c : Char} (alphanumeric : c.isAlphanum = true) : isWordPart c = true := by
  simp [isWordPart, alphanumeric]

theorem splitFraction_of_ne {input : List Char} (absent : input.head? ≠ some '.') : splitFraction input = ([], input) := by
  unfold splitFraction
  split
  · exact absurd rfl absent
  · rfl

theorem splits_splitFraction : Splits splitFraction := by
  intro input
  by_cases point : input.head? = some '.'
  · obtain ⟨rest, rfl⟩ := List.head?_eq_some_iff.mp point
    obtain ⟨whole, kept⟩ := splits_while (fun _ => isWordPart_of_isAlphanum) rest
    refine ⟨congrArg ('.' :: ·) whole, fun other replaces => ?_⟩
    obtain ⟨taken, left⟩ := Prod.mk.inj (kept other replaces)
    simp only [splitFraction, List.cons_append, taken, left]
  · rw [splitFraction_of_ne point]
    exact ⟨rfl, fun other replaces => splitFraction_of_ne (replaces.head?_ne (by decide) point)⟩

theorem splitSigned_of_ne {input : List Char} (plus : input.head? ≠ some '+') (minus : input.head? ≠ some '-') :
    splitSigned input = ([], input) := by
  unfold splitSigned
  split
  · exact absurd rfl plus
  · exact absurd rfl minus
  · rfl

theorem splitSigned_cons {sign : Char} (signed : sign = '+' ∨ sign = '-') (rest : List Char) :
    splitSigned (sign :: rest) = (sign :: rest.takeWhile Char.isDigit, rest.dropWhile Char.isDigit) := by
  rcases signed with rfl | rfl <;> rfl

theorem splits_splitSigned : Splits splitSigned := by
  intro input
  by_cases signed : ∃ sign, (sign = '+' ∨ sign = '-') ∧ input.head? = some sign
  · obtain ⟨sign, isSign, head⟩ := signed
    obtain ⟨rest, rfl⟩ := List.head?_eq_some_iff.mp head
    obtain ⟨whole, kept⟩ := splits_while (fun _ => isWordPart_of_isDigit) rest
    rw [splitSigned_cons isSign]
    refine ⟨congrArg (sign :: ·) whole, fun other replaces => ?_⟩
    obtain ⟨taken, left⟩ := Prod.mk.inj (kept other replaces)
    simp only [List.cons_append, splitSigned_cons isSign, taken, left]
  · have plus : input.head? ≠ some '+' := fun head => signed ⟨'+', Or.inl rfl, head⟩
    have minus : input.head? ≠ some '-' := fun head => signed ⟨'-', Or.inr rfl, head⟩
    rw [splitSigned_of_ne plus minus]
    exact ⟨rfl, fun other replaces =>
      splitSigned_of_ne (replaces.head?_ne (by decide) plus) (replaces.head?_ne (by decide) minus)⟩

theorem splits_splitExponent (literal : List Char) : Splits (splitExponent literal) := by
  unfold splitExponent
  split
  · exact splits_splitSigned
  · exact fun input => ⟨rfl, fun other _ => rfl⟩

/-- The token takes `lexeme` from the front of the input, also before a replacement of the rest. -/
def Takes (scanner : List Char → Scan) (input : List Char) (kind : Token.Kind) (lexeme rest : List Char) : Prop :=
  input = lexeme ++ rest ∧ ∀ other, Replaces other rest → scanner (lexeme ++ other) = .token kind lexeme other

theorem scanNumber_takes {input lexeme rest : List Char} {kind : Token.Kind}
    (scanned : scanNumber input = .token kind lexeme rest) : Takes scanNumber input kind lexeme rest := by
  obtain ⟨whole, kept⟩ := splits_word input
  simp only [scanNumber] at scanned
  simp only at whole kept
  generalize input.takeWhile isWordPart = run at whole kept scanned
  generalize input.dropWhile isWordPart = afterRun at whole kept scanned
  subst whole
  -- In front of any replacement, the run of letters and digits is found again.
  have again : ∀ other, Replaces other afterRun →
      (run ++ other).takeWhile isWordPart = run ∧ (run ++ other).dropWhile isWordPart = other :=
    fun other replaces => Prod.mk.inj (kept other replaces)
  split at scanned
  · rename_i hexadecimal
    cases scanned
    refine ⟨rfl, fun other replaces => ?_⟩
    simp only [scanNumber, again other replaces, hexadecimal, if_true]
  rename_i decimal
  obtain ⟨fractionWhole, fractionKept⟩ := splits_splitFraction afterRun
  generalize splitFraction afterRun = fraction at scanned fractionWhole fractionKept
  obtain ⟨point, afterPoint⟩ := fraction
  simp only at scanned fractionWhole fractionKept
  subst fractionWhole
  split at scanned
  · rename_i whole
    cases scanned
    simp only [Bool.and_eq_true, List.isEmpty_iff] at whole
    obtain ⟨rfl, unmarked⟩ := whole
    refine ⟨rfl, fun other replaces => ?_⟩
    have noFraction := fractionKept other replaces
    rw [List.nil_append] at noFraction
    simp only [scanNumber, again other replaces, decimal, noFraction, unmarked]
    rfl
  · rename_i marked
    obtain ⟨exponentWhole, exponentKept⟩ := splits_splitExponent (run ++ point) afterPoint
    generalize splitExponent (run ++ point) afterPoint = exponent at scanned exponentWhole exponentKept
    obtain ⟨sign, afterSign⟩ := exponent
    simp only at scanned exponentWhole exponentKept
    subst exponentWhole
    cases scanned
    refine ⟨by simp, fun other replaces => ?_⟩
    have behindPoint := replaces.append_left sign
    have behindRun := behindPoint.append_left point
    simp only [scanNumber, List.append_assoc, again _ behindRun, decimal, fractionKept _ behindPoint,
      marked, exponentKept other replaces]
    rfl

theorem scanQuoted_plain {quote c : Char} (plain : c ≠ '\\') (rest : List Char) :
    scanQuoted quote (c :: rest) =
      if c = quote then .closed [] [c] rest
      else if c = '\n' then .fault .openString [c] rest
      else (scanQuoted quote rest).cons [c] c := by
  rw [scanQuoted]
  · exact fun escape _ => plain escape
  · exact fun _ _ escape _ => plain escape

theorem Quoted.closed_of_cons {written value lexeme rest : List Char} {c : Char} {quoted : Quoted}
    (consed : quoted.cons written c = .closed value lexeme rest) :
    ∃ later laterLexeme, quoted = .closed later laterLexeme rest ∧ value = c :: later ∧
      lexeme = written ++ laterLexeme := by
  cases quoted with
  | fault cause spoiled left => cases consed
  | closed later laterLexeme left =>
    cases consed
    exact ⟨later, laterLexeme, rfl, rfl, rfl⟩

theorem scanQuoted_closed {quote : Char} {input value lexeme rest : List Char}
    (scanned : scanQuoted quote input = .closed value lexeme rest) :
    input = lexeme ++ rest ∧ ∀ other, scanQuoted quote (lexeme ++ other) = .closed value lexeme other := by
  have plain_of {c : Char} {later : List Char} (single : c = '\\' → later = [] → False)
      (double : ∀ next more, c = '\\' → later = next :: more → False) : c ≠ '\\' := by
    intro escape
    cases later with
    | nil => exact single escape rfl
    | cons next more => exact double next more escape rfl
  fun_induction scanQuoted quote input generalizing value lexeme with
  | case1 | case2 | case5 => cases scanned
  | case3 c tail ih =>
    obtain ⟨later, laterLexeme, inner, rfl, rfl⟩ := Quoted.closed_of_cons scanned
    obtain ⟨rfl, kept⟩ := ih inner
    exact ⟨rfl, fun other => by simp [scanQuoted, kept, Quoted.cons]⟩
  | case4 tail single double =>
    cases scanned
    refine ⟨rfl, fun other => ?_⟩
    rw [List.singleton_append, scanQuoted_plain (plain_of single double), if_pos rfl]
  | case6 c tail single double inside feed ih =>
    obtain ⟨later, laterLexeme, inner, rfl, rfl⟩ := Quoted.closed_of_cons scanned
    have plain := plain_of single double
    obtain ⟨rfl, kept⟩ := ih inner
    refine ⟨rfl, fun other => ?_⟩
    rw [List.append_assoc, List.singleton_append, scanQuoted_plain plain, if_neg inside, if_neg feed, kept]
    rfl

theorem Quoted.fault_of_cons {written spoiled rest : List Char} {c : Char} {cause : Fault} {quoted : Quoted}
    (consed : quoted.cons written c = .fault cause spoiled rest) :
    ∃ later, quoted = .fault cause later rest ∧ spoiled = written ++ later := by
  cases quoted with
  | closed value lexeme left => cases consed
  | fault _ later left =>
    cases consed
    exact ⟨later, rfl, rfl⟩

theorem scanQuoted_fault {quote : Char} {input spoiled rest : List Char} {cause : Fault}
    (scanned : scanQuoted quote input = .fault cause spoiled rest) :
    (cause = .openString ∨ cause = .openEscape) ∧ input = spoiled ++ rest := by
  fun_induction scanQuoted quote input generalizing spoiled with
  | case1 | case5 =>
    cases scanned
    exact ⟨Or.inl rfl, rfl⟩
  | case2 =>
    cases scanned
    exact ⟨Or.inr rfl, rfl⟩
  | case4 => cases scanned
  | case3 c tail ih | case6 c tail _ _ _ _ ih =>
    obtain ⟨later, inner, rfl⟩ := Quoted.fault_of_cons scanned
    obtain ⟨unclosed, rfl⟩ := ih inner
    exact ⟨unclosed, rfl⟩

theorem scan_takes {head : Char} {tail lexeme rest : List Char} {kind : Token.Kind}
    (scanned : scan head tail = .token kind lexeme rest) :
    ∃ inner, lexeme = head :: inner ∧ tail = inner ++ rest ∧
      ∀ other, Replaces other rest → scan head (inner ++ other) = .token kind lexeme other := by
  -- Which scan is used depends on the first character alone.
  have takes : ∃ scanner, (∀ tail, scan head tail = scanner (head :: tail)) ∧
      Takes scanner (head :: tail) kind lexeme rest := by
    by_cases letter : isLetter head = true
    · refine ⟨fun input => .token (.identifier (String.ofList (input.takeWhile isWordPart)))
        (input.takeWhile isWordPart) (input.dropWhile isWordPart), fun tail => by rw [scan, if_pos letter], ?_⟩
      rw [scan, if_pos letter] at scanned
      cases scanned
      obtain ⟨whole, kept⟩ := splits_word (head :: tail)
      refine ⟨whole, fun other replaces => ?_⟩
      obtain ⟨taken, left⟩ := Prod.mk.inj (kept other replaces)
      simp only [taken, left]
    by_cases digit : head.isDigit = true
    · have same : ∀ tail, scan head tail = scanNumber (head :: tail) := by
        intro tail
        rw [scan, if_neg letter, if_pos digit]
      exact ⟨scanNumber, same, scanNumber_takes ((same tail).symm.trans scanned)⟩
    by_cases quote : (head = '"' || head = '\'') = true
    · have same : ∀ tail, scan head tail = scanString head tail := by
        intro tail
        rw [scan, if_neg letter, if_neg digit, if_pos quote]
      refine ⟨fun input => scanString head input.tail, same, ?_⟩
      rw [same, scanString] at scanned
      split at scanned
      · rename_i closed
        cases scanned
        obtain ⟨rfl, kept⟩ := scanQuoted_closed closed
        exact ⟨rfl, fun other _ => by simp [scanString, kept]⟩
      · cases scanned
    · rw [scan, if_neg letter, if_neg digit, if_neg quote] at scanned
      split at scanned
      · rename_i listed
        cases scanned
        exact ⟨fun input => .token (.symbol head) [head] input.tail,
          fun tail => by rw [scan, if_neg letter, if_neg digit, if_neg quote, if_pos listed]; rfl,
          rfl, fun other _ => rfl⟩
      · cases scanned
  obtain ⟨scanner, same, whole, kept⟩ := takes
  have shorter := scan_length_lt scanned
  cases lexeme with
  | nil =>
    rw [whole] at shorter
    exact absurd shorter (Nat.lt_irrefl _)
  | cons first inner =>
    cases whole
    exact ⟨inner, rfl, rfl, fun other replaces => (same _).trans (kept other replaces)⟩

theorem scanNumber_isToken (input : List Char) : ∃ kind lexeme rest, scanNumber input = .token kind lexeme rest := by
  simp only [scanNumber]
  split
  · exact ⟨_, _, _, rfl⟩
  · split <;> exact ⟨_, _, _, rfl⟩

/-- The first character makes a token certain or impossible, unless it is a quote. -/
theorem scan_cases (head : Char) :
    (isApart head = false ∧ ∀ tail, ∃ kind lexeme rest, scan head tail = .token kind lexeme rest) ∨
    ((head = '"' ∨ head = '\'') ∧ ∀ tail, scan head tail = scanString head tail) ∨
    ∀ tail, scan head tail = .fault (.unexpected head) [] (head :: tail) := by
  by_cases letter : isLetter head = true
  · refine Or.inl ⟨isApart_of_isWordPart (Name.isWordPart_of_isLetter letter), fun tail => ?_⟩
    rw [scan, if_pos letter]
    exact ⟨_, _, _, rfl⟩
  by_cases digit : head.isDigit = true
  · refine Or.inl ⟨isApart_of_isWordPart (isWordPart_of_isDigit digit), fun tail => ?_⟩
    rw [scan, if_neg letter, if_pos digit]
    exact scanNumber_isToken _
  by_cases quote : (head = '"' || head = '\'') = true
  · refine Or.inr (Or.inl ⟨by simpa using quote, fun tail => ?_⟩)
    rw [scan, if_neg letter, if_neg digit, if_pos quote]
  by_cases listed : symbols.contains head = true
  · have close : (symbols.all fun c => !isApart c) = true := by decide
    refine Or.inl ⟨by simpa using List.all_eq_true.mp close head (List.contains_iff_mem.mp listed), fun tail => ?_⟩
    rw [scan, if_neg letter, if_neg digit, if_neg quote, if_pos listed]
    exact ⟨_, _, _, rfl⟩
  · refine Or.inr (Or.inr fun tail => ?_)
    rw [scan, if_neg letter, if_neg digit, if_neg quote, if_neg listed]

theorem isApart_of_scan {head : Char} {tail lexeme rest : List Char} {kind : Token.Kind}
    (scanned : scan head tail = .token kind lexeme rest) : isApart head = false := by
  rcases scan_cases head with ⟨close, -⟩ | ⟨quote, -⟩ | unexpected
  · exact close
  · rcases quote with rfl | rfl <;> decide
  · rw [unexpected] at scanned
    cases scanned

/-- A token begins with no blank and with no slash, so that skipping stops in front of it. -/
theorem solid_of_scan {head : Char} {tail lexeme rest : List Char} {kind : Token.Kind}
    (scanned : scan head tail = .token kind lexeme rest) : Text.isBlank head = false ∧ head ≠ '/' := by
  have close := isApart_of_scan scanned
  simpa only [isApart, Bool.or_eq_false_iff, decide_eq_false_iff_not] using close

def Fault.Opens : Fault → List Char → Prop
  | .unexpected character, text => text.head? = some character
  | .openComment, text => ['/', '*'] <+: text
  | .openString, text | .openEscape, text => text.head? = some '"' ∨ text.head? = some '\''

/-- A faulty scan leaves a character that begins no token where it is, and spoils what a quote opens. -/
theorem scan_fault {head : Char} {tail spoiled rest : List Char} {cause : Fault}
    (scanned : scan head tail = .fault cause spoiled rest) :
    (cause = .unexpected head ∧ spoiled = [] ∧ rest = head :: tail) ∨
    ((head = '"' ∨ head = '\'') ∧ (cause = .openString ∨ cause = .openEscape) ∧
      ∃ inner, spoiled = head :: inner ∧ tail = inner ++ rest) := by
  rcases scan_cases head with ⟨-, token⟩ | ⟨quote, string⟩ | unexpected
  · obtain ⟨kind, lexeme, left, read⟩ := token tail
    rw [read] at scanned
    cases scanned
  · rw [string, scanString] at scanned
    split at scanned
    · cases scanned
    · rename_i failed
      cases scanned
      obtain ⟨unclosed, split⟩ := scanQuoted_fault failed
      exact Or.inr ⟨quote, unclosed, _, rfl, split⟩
  · rw [unexpected] at scanned
    cases scanned
    exact Or.inl ⟨rfl, rfl, rfl⟩

theorem opens_of_scan {head : Char} {tail spoiled rest : List Char} {cause : Fault}
    (scanned : scan head tail = .fault cause spoiled rest) : cause.Opens (head :: tail) := by
  rcases scan_fault scanned with ⟨rfl, -⟩ | ⟨quote, unclosed, -⟩
  · rfl
  · have opens : (head :: tail).head? = some '"' ∨ (head :: tail).head? = some '\'' :=
      quote.imp (congrArg some) (congrArg some)
    rcases unclosed with rfl | rfl <;> exact opens

/-- Where the whole text is faulty, so is each front of it. -/
theorem scan_fault_of_append {head : Char} {inner more spoiled rest : List Char} {cause : Fault}
    (scanned : scan head (inner ++ more) = .fault cause spoiled rest) :
    ∃ cause spoiled rest, scan head inner = .fault cause spoiled rest := by
  rcases scan_cases head with ⟨-, token⟩ | ⟨-, string⟩ | unexpected
  · obtain ⟨kind, lexeme, left, read⟩ := token (inner ++ more)
    rw [read] at scanned
    cases scanned
  · cases closed : scanQuoted head inner with
    | fault cause spoiled rest => exact ⟨cause, head :: spoiled, rest, by rw [string, scanString, closed]⟩
    | closed value lexeme left =>
      obtain ⟨rfl, kept⟩ := scanQuoted_closed closed
      rw [string, scanString, List.append_assoc, kept] at scanned
      cases scanned
  · exact ⟨_, _, _, unexpected inner⟩

end SchemaMarshal.Lexeme
