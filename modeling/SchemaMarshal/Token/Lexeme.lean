import SchemaMarshal.Token.Basic

/-! The single token, or the fault, at the head of the input.

Every scan splits its input: `lexeme` is what the token takes and `rest` is what it leaves. A
fault also says how much of the input it spoils.
-/

set_option autoImplicit false

namespace SchemaMarshal.Lexeme

inductive Fault where
  | unexpected (character : Char)
  | openComment
  | openString
  | openEscape
  deriving DecidableEq, Repr

def Fault.message : Fault → String
  | .unexpected character => "unexpected character '" ++ character.toString ++ "'"
  | .openComment => "unterminated block comment"
  | .openString => "unterminated string literal"
  | .openEscape => "unterminated escape sequence"

inductive Scan where
  | token (kind : Token.Kind) (lexeme rest : List Char)
  | fault (cause : Fault) (spoiled rest : List Char)
  deriving DecidableEq, Repr

def isLetter (c : Char) : Bool := c.isAlpha || c = '_'

def isWordPart (c : Char) : Bool := c.isAlphanum || c = '_'

def symbols : List Char :=
  ['\x7b', '\x7d', '[', ']', '(', ')', '<', '>', ';', '=', ',', '.', '-', '+', ':']

def isHexadecimal : List Char → Bool
  | '0' :: 'x' :: _ => true
  | '0' :: 'X' :: _ => true
  | _ => false

def isExponentMark (c : Char) : Bool := c = 'e' || c = 'E'

def splitFraction : List Char → List Char × List Char
  | '.' :: rest => ('.' :: rest.takeWhile Char.isAlphanum, rest.dropWhile Char.isAlphanum)
  | rest => ([], rest)

def splitSigned : List Char → List Char × List Char
  | '+' :: rest => ('+' :: rest.takeWhile Char.isDigit, rest.dropWhile Char.isDigit)
  | '-' :: rest => ('-' :: rest.takeWhile Char.isDigit, rest.dropWhile Char.isDigit)
  | rest => ([], rest)

/-- A sign belongs to a number only right after an exponent mark. -/
def splitExponent (literal rest : List Char) : List Char × List Char :=
  if literal.getLast?.any isExponentMark then splitSigned rest else ([], rest)

/-- Letters and digits belong to the number they follow, so that a misspelt number is one token. -/
def scanNumber (input : List Char) : Scan :=
  let run := input.takeWhile isWordPart
  let afterRun := input.dropWhile isWordPart
  if isHexadecimal run then
    .token (.integer (String.ofList run)) run afterRun
  else
    let fraction := splitFraction afterRun
    if fraction.1.isEmpty && !run.any isExponentMark then
      .token (.integer (String.ofList run)) run afterRun
    else
      let exponent := splitExponent (run ++ fraction.1) fraction.2
      let literal := run ++ fraction.1 ++ exponent.1
      .token (.decimal (String.ofList literal)) literal exponent.2

def unescape : Char → Char
  | 'n' => '\n'
  | 'r' => '\r'
  | 't' => '\t'
  | '0' => '\x00'
  | c => c

inductive Quoted where
  | closed (value lexeme rest : List Char)
  | fault (cause : Fault) (spoiled rest : List Char)
  deriving DecidableEq, Repr

def Quoted.cons (written : List Char) (c : Char) : Quoted → Quoted
  | .closed value lexeme rest => .closed (c :: value) (written ++ lexeme) rest
  | .fault cause spoiled rest => .fault cause (written ++ spoiled) rest

/-- Read a string literal after its opening quote. A line feed must be escaped. -/
def scanQuoted (quote : Char) : List Char → Quoted
  | [] => .fault .openString [] []
  | '\\' :: [] => .fault .openEscape ['\\'] []
  | '\\' :: c :: rest => (scanQuoted quote rest).cons ['\\', c] (unescape c)
  | c :: rest =>
      if c = quote then .closed [] [c] rest
      else if c = '\n' then .fault .openString [c] rest
      else (scanQuoted quote rest).cons [c] c

def scanString (quote : Char) (rest : List Char) : Scan :=
  match scanQuoted quote rest with
  | .closed value lexeme rest => .token (.quoted (String.ofList value)) (quote :: lexeme) rest
  | .fault cause spoiled rest => .fault cause (quote :: spoiled) rest

/-- Scan an input that starts with `head`. An unexpected character stays in the input. -/
def scan (head : Char) (tail : List Char) : Scan :=
  if isLetter head then
    let word := (head :: tail).takeWhile isWordPart
    .token (.identifier (String.ofList word)) word ((head :: tail).dropWhile isWordPart)
  else if head.isDigit then scanNumber (head :: tail)
  else if head = '"' || head = '\'' then scanString head tail
  else if symbols.contains head then .token (.symbol head) [head] tail
  else .fault (.unexpected head) [] (head :: tail)

theorem length_dropWhile_le (p : Char → Bool) (input : List Char) :
    (input.dropWhile p).length ≤ input.length :=
  (List.dropWhile_suffix p).length_le

theorem length_dropWhile_lt (p : Char → Bool) {head : Char} (holds : p head = true) (tail : List Char) :
    ((head :: tail).dropWhile p).length < (head :: tail).length := by
  rw [List.dropWhile_cons_of_pos holds]
  exact Nat.lt_succ_of_le (length_dropWhile_le p tail)

theorem length_splitFraction_le (input : List Char) : (splitFraction input).2.length ≤ input.length := by
  unfold splitFraction
  split
  · exact Nat.le_succ_of_le (length_dropWhile_le _ _)
  · exact Nat.le_refl _

theorem length_splitSigned_le (input : List Char) : (splitSigned input).2.length ≤ input.length := by
  unfold splitSigned
  split
  · exact Nat.le_succ_of_le (length_dropWhile_le _ _)
  · exact Nat.le_succ_of_le (length_dropWhile_le _ _)
  · exact Nat.le_refl _

theorem length_splitExponent_le (literal input : List Char) :
    (splitExponent literal input).2.length ≤ input.length := by
  unfold splitExponent
  split
  · exact length_splitSigned_le input
  · exact Nat.le_refl _

theorem scanNumber_length_lt {head : Char} {tail : List Char} (digit : head.isDigit = true)
    {kind : Token.Kind} {lexeme rest : List Char}
    (scanned : scanNumber (head :: tail) = .token kind lexeme rest) :
    rest.length < (head :: tail).length := by
  have part : isWordPart head = true := by simp [isWordPart, Char.isAlphanum, digit]
  have afterRun := length_dropWhile_lt isWordPart part tail
  unfold scanNumber at scanned
  simp only at scanned
  split at scanned
  · cases scanned; exact afterRun
  · split at scanned
    · cases scanned; exact afterRun
    · cases scanned
      exact Nat.lt_of_le_of_lt (Nat.le_trans (length_splitExponent_le _ _) (length_splitFraction_le _)) afterRun

theorem scanQuoted_length_le (quote : Char) (input : List Char) {value lexeme rest : List Char}
    (scanned : scanQuoted quote input = .closed value lexeme rest) : rest.length ≤ input.length := by
  fun_induction scanQuoted quote input generalizing value lexeme with
  | case1 => cases scanned
  | case2 => cases scanned
  | case3 c tail ih =>
    cases inner : scanQuoted quote tail with
    | fault _ _ _ => simp [inner, Quoted.cons] at scanned
    | closed innerValue innerLexeme innerRest =>
      simp only [inner, Quoted.cons, Quoted.closed.injEq] at scanned
      have := ih (inner.trans (by rw [scanned.2.2]))
      simp only [List.length_cons]
      omega
  | case4 => cases scanned; simp
  | case5 => cases scanned
  | case6 c tail _ _ _ _ ih =>
    cases inner : scanQuoted quote tail with
    | fault _ _ _ => simp [inner, Quoted.cons] at scanned
    | closed innerValue innerLexeme innerRest =>
      simp only [inner, Quoted.cons, Quoted.closed.injEq] at scanned
      have := ih (inner.trans (by rw [scanned.2.2]))
      simp only [List.length_cons]
      omega

theorem scan_length_lt {head : Char} {tail : List Char} {kind : Token.Kind} {lexeme rest : List Char}
    (scanned : scan head tail = .token kind lexeme rest) : rest.length < (head :: tail).length := by
  unfold scan at scanned
  split at scanned
  · rename_i letter
    cases scanned
    refine length_dropWhile_lt isWordPart ?_ tail
    simp only [isLetter, Bool.or_eq_true] at letter
    rcases letter with letter | underscore
    · simp [isWordPart, Char.isAlphanum, letter]
    · simp [isWordPart, underscore]
  · split at scanned
    · rename_i digit
      exact scanNumber_length_lt digit scanned
    · split at scanned
      · unfold scanString at scanned
        split at scanned
        · rename_i quoted
          cases scanned
          exact Nat.lt_succ_of_le (scanQuoted_length_le _ _ quoted)
        · cases scanned
      · split at scanned
        · cases scanned; simp
        · cases scanned

end SchemaMarshal.Lexeme
