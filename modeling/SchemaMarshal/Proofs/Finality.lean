import SchemaMarshal.Proofs.Concatenation

/-! A refusal is final.

Readers look at the token ahead in many places, and the end of the tokens looks like any token that
does not fit. `Decisive` says that this never leads to a wrong diagnosis: a reader that fails on some
tokens either asks for more of them, or names one of them and fails in the same way whatever follows.
The one type that is refused before it is complete is `group`, the beginning of `group.Member`.
-/

set_option autoImplicit false

namespace SchemaMarshal

namespace ParseError

/-- The text is refused, not merely incomplete. -/
def isRefusal : ParseError → Bool
  | .malformed _ _ _ => true
  | .unsupported _ _ _ => true
  | _ => false

/-- The error names the position of this token, or its line where it names no more. -/
def StandsAt : ParseError → Token → Prop
  | .malformed _ position _, token => token.position = position
  | .unsupported _ line _, token => token.position.line = line
  | _, _ => False

end ParseError

def Failure.StandsAt (failure : Failure) (token : Token) : Prop :=
  ∀ source, (failure.inSource source).StandsAt token

namespace Parser

variable {α β : Type}

/-- Tokens that do not end with a type that may or may not go on. -/
def Severable (tokens : List Token) : Prop := ∀ token ∈ tokens.getLast?, token.kind ≠ .identifier "group"

theorem Severable.suffix {tokens rest : List Token} (severable : Severable tokens) (behind : rest <:+ tokens) :
    Severable rest := by
  obtain ⟨taken, rfl⟩ := behind
  intro token last
  apply severable token
  rw [List.getLast?_append, last]
  rfl

/-- A failure asks for more tokens, or it names one of the tokens, or of those `known` before them, and
comes back whatever follows. -/
def Decisive (known : List Token) (reader : Parser α) : Prop :=
  ∀ ⦃tokens : List Token⦄ ⦃failure : Failure⦄, Severable tokens → reader tokens = .error failure →
    (∃ expected, failure = .unexpectedEnd expected) ∨
      (∃ token ∈ known ++ tokens, failure.StandsAt token) ∧ ∀ more, reader (tokens ++ more) = .error failure

/-- Every failure asks for more tokens. -/
def Patient (reader : Parser α) : Prop :=
  ∀ ⦃tokens : List Token⦄ ⦃failure : Failure⦄, reader tokens = .error failure →
    ∃ expected, failure = .unexpectedEnd expected

def Hungry (reader : Parser α) : Prop := ∃ expected, reader [] = .error (.unexpectedEnd expected)

theorem Patient.decisive {reader : Parser α} (patient : reader.Patient) {known : List Token} : Decisive known reader :=
  fun _ _ _ failed => Or.inl (patient failed)

theorem Patient.bind {reader : Parser α} {following : α → Parser β} (first : reader.Patient)
    (next : ∀ value, (following value).Patient) : (reader >>= following).Patient := by
  intro tokens failure failed
  rcases bind_eq_error failed with failed | ⟨value, rest, -, failed⟩
  · exact first failed
  · exact next value failed

theorem patient_pure (value : α) : (pure value : Parser α).Patient := by
  intro tokens failure failed
  cases failed

section

variable {known : List Token} {reader : Parser α} {following : α → Parser β}

/-- The first reader may have been mistaken about what follows only where nothing was left, and there
the second one asks for more. -/
theorem Decisive.bind_of_ends (first : Decisive known reader) (reads : Local reader reader)
    (next : ∀ value, Decisive known (following value))
    (ends : ∀ ⦃tokens : List Token⦄ ⦃value : α⦄, Severable tokens → reader tokens = .ok (value, []) →
      (following value).Hungry ∨ ∀ more, reader (tokens ++ more) = .ok (value, more)) :
    Decisive known (reader >>= following) := by
  intro tokens failure severable failed
  rcases bind_eq_error failed with failed | ⟨value, rest, read, failed⟩
  · rcases first severable failed with asks | ⟨named, again⟩
    · exact Or.inl asks
    · exact Or.inr ⟨named, fun more => bind_of_error (again more) following⟩
  · have behind := reads.suffix read
    rcases next value (severable.suffix behind) failed with asks | ⟨⟨token, member, stands⟩, again⟩
    · exact Or.inl asks
    · have inside : token ∈ known ++ tokens := by
        rw [List.mem_append] at member ⊢
        exact member.imp_right fun later => behind.subset later
      by_cases left : rest = []
      · subst left
        rcases ends severable read with ⟨expected, starved⟩ | settled
        · rw [starved] at failed
          cases failed
          exact Or.inl ⟨expected, rfl⟩
        · refine Or.inr ⟨⟨token, inside, stands⟩, fun more => ?_⟩
          rw [bind_of_ok (settled more)]
          exact again more
      · refine Or.inr ⟨⟨token, inside, stands⟩, fun more => ?_⟩
        rw [bind_of_ok (reads.append read left more)]
        exact again more

theorem Decisive.bind (first : Decisive known reader) (reads : Free reader reader)
    (next : ∀ value, Decisive known (following value)) : Decisive known (reader >>= following) :=
  first.bind_of_ends reads.local next fun _ _ _ read => Or.inr fun more => reads.append read more

theorem Decisive.bindHungry (first : Decisive known reader) (reads : Local reader reader)
    (next : ∀ value, Decisive known (following value)) (hungry : ∀ value, (following value).Hungry) :
    Decisive known (reader >>= following) :=
  first.bind_of_ends reads next fun _ value _ _ => Or.inl (hungry value)

theorem Decisive.map (first : Decisive known reader) (combine : α → β) :
    Decisive known (reader >>= fun value => pure (combine value)) := by
  intro tokens failure severable failed
  rcases bind_eq_error failed with failed | ⟨value, rest, -, failed⟩
  · rcases first severable failed with asks | ⟨named, again⟩
    · exact Or.inl asks
    · exact Or.inr ⟨named, fun more => bind_of_error (again more) _⟩
  · cases failed

end

section

variable {known : List Token}

theorem decisive_pure (value : α) : Decisive known (pure value : Parser α) := (patient_pure value).decisive

theorem decisive_fail {failure : Failure} {token : Token} (member : token ∈ known) (stands : failure.StandsAt token) :
    Decisive known (fail failure : Parser α) := by
  intro tokens cause _ failed
  cases failed
  exact Or.inr ⟨⟨token, List.mem_append_left _ member, stands⟩, fun _ => rfl⟩

theorem standsAt_malformed (token : Token) (cause : Malformation) :
    (Failure.malformed token.position cause).StandsAt token := fun _ => rfl

theorem standsAt_unsupported (token : Token) (construct : String) :
    (Failure.unsupported token.position.line construct).StandsAt token := fun _ => rfl

theorem standsAt_unexpected (token : Token) (expected : Expectation) : (unexpected token expected).StandsAt token :=
  standsAt_malformed token _

theorem decisive_unexpected {token : Token} (member : token ∈ known) (expected : Expectation) :
    Decisive known (fail (unexpected token expected) : Parser α) :=
  decisive_fail member (standsAt_unexpected token expected)

theorem decisive_require {failure : Failure} {token : Token} (member : token ∈ known)
    (stands : failure.StandsAt token) (condition : Bool) : Decisive known (require condition failure) := by
  cases condition with
  | true => exact decisive_pure ()
  | false => exact decisive_fail member stands

theorem decisive_demand {failure : Failure} {token : Token} (member : token ∈ known)
    (stands : failure.StandsAt token) (value? : Option α) : Decisive known (demand value? failure) := by
  cases value? with
  | some value => exact decisive_pure value
  | none => exact decisive_fail member stands

theorem Decisive.next_bind {following : Token → Parser α} (expected : Expectation)
    (continues : ∀ token, Decisive (token :: known) (following token)) :
    Decisive known (next expected >>= following) := by
  intro tokens failure severable failed
  cases tokens with
  | nil =>
    cases failed
    exact Or.inl ⟨expected, rfl⟩
  | cons token rest =>
    rcases continues token (severable.suffix (List.suffix_cons token rest)) failed with asks | ⟨⟨other, member, stands⟩, again⟩
    · exact Or.inl asks
    · refine Or.inr ⟨⟨other, ?_, stands⟩, again⟩
      simp only [List.cons_append, List.mem_cons, List.mem_append] at member ⊢
      tauto

theorem Decisive.peek_bind {following : Token → Parser α} (expected : Expectation)
    (continues : ∀ token, Decisive (token :: known) (following token)) :
    Decisive known (peek expected >>= following) := by
  intro tokens failure severable failed
  cases tokens with
  | nil =>
    cases failed
    exact Or.inl ⟨expected, rfl⟩
  | cons token rest =>
    rcases continues token severable failed with asks | ⟨⟨other, member, stands⟩, again⟩
    · exact Or.inl asks
    · refine Or.inr ⟨⟨other, ?_, stands⟩, again⟩
      simp only [List.cons_append, List.mem_cons, List.mem_append] at member ⊢
      tauto

theorem patient_nextIs (character : Char) : (nextIs character).Patient := by
  rintro (_ | ⟨token, tokens⟩) failure failed <;> cases failed

theorem patient_skipSymbol (character : Char) : (skipSymbol character).Patient := by
  rintro (_ | ⟨token, tokens⟩) failure failed
  · cases failed
  · simp only [skipSymbol] at failed
    split at failed <;> cases failed

theorem patient_skipWord (words : List String) : (skipWord words).Patient := by
  rintro (_ | ⟨token, tokens⟩) failure failed
  · cases failed
  · simp only [skipWord] at failed
    split at failed <;> cases failed

theorem patient_label : label.Patient := by
  rintro (_ | ⟨token, tokens⟩) failure failed
  · cases failed
  · simp only [label] at failed
    split at failed
    · split at failed <;> cases failed
    · cases failed

theorem decisive_symbol (character : Char) : Decisive known (symbol character) :=
  .next_bind _ fun token => decisive_require List.mem_cons_self (standsAt_unexpected token _) _

theorem decisive_identifier (expected : Expectation) : Decisive known (identifier expected) :=
  .next_bind _ fun token => by
    split
    · exact decisive_pure _
    · exact decisive_unexpected List.mem_cons_self _

theorem decisive_quoted (expected : Expectation) : Decisive known (quoted expected) :=
  .next_bind _ fun token => by
    split
    · exact decisive_pure _
    · exact decisive_unexpected List.mem_cons_self _

theorem nameParts_append_error {expected : Expectation} {tokens : List Token} {failure : Failure}
    (failed : nameParts expected tokens = .error failure) :
    (∃ expected, failure = .unexpectedEnd expected) ∨
      (∃ token ∈ tokens, failure.StandsAt token) ∧ ∀ more, nameParts expected (tokens ++ more) = .error failure := by
  fun_induction nameParts expected tokens with
  | case1 | case3 | case4 | case7 => cases failed
  | case2 =>
    cases failed
    exact Or.inl ⟨expected, rfl⟩
  | case5 token part rest point text isText cause inner ih =>
    cases failed
    rcases ih inner with asks | ⟨⟨other, member, stands⟩, again⟩
    · exact Or.inl asks
    · refine Or.inr ⟨⟨other, by simp [member], stands⟩, fun more => ?_⟩
      simp only [List.cons_append, nameParts, point, if_true, isText, again more]
  | case6 token part rest point other =>
    cases failed
    refine Or.inr ⟨⟨part, by simp, standsAt_unexpected part expected⟩, fun more => ?_⟩
    simp only [List.cons_append, nameParts, point, if_true]

theorem decisive_nameParts (expected : Expectation) : Decisive known (nameParts expected) := by
  intro tokens failure _ failed
  rcases nameParts_append_error failed with asks | ⟨⟨token, member, stands⟩, again⟩
  · exact Or.inl asks
  · exact Or.inr ⟨⟨token, List.mem_append_right _ member, stands⟩, again⟩

theorem decisive_dottedName (expected : Expectation) : Decisive known (dottedName expected) :=
  (patient_skipSymbol _).decisive.bindHungry (local_skipSymbol _)
    (fun _ => (decisive_identifier _).bind (firm_identifier _).free fun _ => (decisive_nameParts _).map _)
    fun _ => ⟨expected, rfl⟩

theorem patient_adjacentStrings : adjacentStrings.Patient := by
  intro tokens failure failed
  fun_induction adjacentStrings tokens with
  | case1 | case2 | case4 => cases failed
  | case3 token rest value isQuoted cause inner ih =>
    cases failed
    exact ih inner

theorem decisive_unsigned : Decisive known unsigned :=
  .next_bind _ fun token => by
    split
    · exact decisive_pure _
    · exact decisive_pure _
    · exact (decisive_require List.mem_cons_self (standsAt_unexpected token _) _).map _
    · exact decisive_unexpected List.mem_cons_self _

theorem decisive_constant : Decisive known constant :=
  .next_bind _ fun token => by
    split
    · exact patient_adjacentStrings.decisive.map _
    · exact decisive_pure _
    · exact decisive_pure _
    · exact decisive_pure _
    · exact decisive_unsigned.map _
    · exact decisive_unsigned.map _
    · exact decisive_fail List.mem_cons_self (standsAt_unsupported token _)
    · exact decisive_unexpected List.mem_cons_self _

theorem decisive_integer (expected : Expectation) : Decisive known (integer expected) :=
  (patient_skipSymbol _).decisive.bindHungry (local_skipSymbol _)
    (fun _ => .next_bind _ fun token => by
      split
      · exact (decisive_demand List.mem_cons_self (standsAt_malformed token _) _).map _
      · exact decisive_unexpected List.mem_cons_self _)
    fun _ => ⟨expected, rfl⟩

theorem patient_skipGroup (depth : Nat) : (skipGroup depth).Patient := by
  intro tokens failure failed
  fun_induction skipGroup depth tokens with
  | case1 =>
    cases failed
    exact ⟨_, rfl⟩
  | case3 => cases failed
  | case2 _ _ _ _ ih | case4 _ _ _ _ _ ih | case5 _ _ _ _ _ ih => exact ih failed

theorem patient_attributes : attributes.Patient :=
  (patient_skipSymbol _).bind fun opened => by
    split
    · exact patient_skipGroup 0
    · exact patient_pure ()

theorem patient_skipStatement : skipStatement.Patient := by
  intro tokens failure failed
  fun_induction skipStatement tokens with
  | case1 =>
    cases failed
    exact ⟨_, rfl⟩
  | case2 => cases failed
  | case3 _ _ _ ih => exact ih failed

theorem decisive_settingName : Decisive known settingName := by
  refine (patient_skipSymbol _).decisive.bindHungry (local_skipSymbol _) (fun custom => ?_) (fun custom => ?_)
  · split
    · exact (decisive_dottedName _).bindHungry (local_dottedName _)
        (fun _ => (decisive_symbol _).bind (firm_symbol _).free fun _ => (decisive_nameParts _).map _)
        fun _ => ⟨_, rfl⟩
    · exact (decisive_identifier _).bind (firm_identifier _).free fun _ => (decisive_nameParts _).map _
  · cases custom <;> exact ⟨_, rfl⟩

theorem decisive_closing (value : α) : Decisive known (do symbol ';'; pure value) := (decisive_symbol ';').map _

theorem decisive_setting : Decisive known setting :=
  decisive_settingName.bindHungry local_settingName
    (fun _ => (decisive_symbol _).bind (firm_symbol _).free fun _ =>
      decisive_constant.bindHungry local_constant (fun _ => decisive_closing _) fun _ => ⟨_, rfl⟩)
    fun _ => ⟨_, rfl⟩

-- A type may go on behind its first word, so `group` is refused for certain only once another token
-- is there.
theorem nameParts_eq_ok {expected : Expectation} {tokens rest : List Token} {parts : String}
    (read : nameParts expected tokens = .ok (parts, rest)) : (parts = "" ∧ rest = tokens) ∨ '.' ∈ parts.toList := by
  fun_induction nameParts expected tokens with
  | case1 | case3 | case7 =>
    cases read
    exact Or.inl ⟨rfl, rfl⟩
  | case2 | case5 | case6 => cases read
  | case4 =>
    cases read
    right
    simp

theorem skipSymbol_eq_false {character : Char} {tokens rest : List Token}
    (read : skipSymbol character tokens = .ok (false, rest)) : rest = tokens := by
  cases tokens with
  | nil => cases read; rfl
  | cons token tokens =>
    simp only [skipSymbol] at read
    split at read <;> cases read
    rfl

theorem identifier_eq_ok {expected : Expectation} {tokens rest : List Token} {text : String}
    (read : identifier expected tokens = .ok (text, rest)) :
    ∃ token, tokens = token :: rest ∧ token.kind = .identifier text := by
  obtain ⟨token, later, rfl, continued⟩ := next_bind_eq_ok expected read
  cases kind : token.kind with
  | identifier found =>
    rw [kind] at continued
    cases continued
    exact ⟨token, rfl, kind⟩
  | integer _ | decimal _ | quoted _ | symbol _ =>
    rw [kind] at continued
    cases continued

theorem dottedName_eq_group {expected : Expectation} {tokens rest : List Token}
    (read : dottedName expected tokens = .ok ("group", rest)) :
    ∃ token, tokens = token :: rest ∧ token.kind = .identifier "group" := by
  obtain ⟨absolute, named, skipped, read⟩ := bind_eq_ok.mp read
  obtain ⟨first, behind, identified, read⟩ := bind_eq_ok.mp read
  obtain ⟨parts, left, continued, read⟩ := bind_eq_ok.mp read
  obtain ⟨joined, rfl⟩ := Prod.mk.inj (Except.ok.inj read)
  -- No point stands in `group`, so there was none in front and no part behind.
  have plain : '.' ∉ ((if absolute then "." else "") ++ first ++ parts).toList := by
    rw [joined]
    decide
  simp only [String.toList_append, List.mem_append, not_or] at plain
  obtain ⟨⟨bare, -⟩, whole⟩ := plain
  obtain ⟨rfl, rfl⟩ := (nameParts_eq_ok continued).resolve_right whole
  cases absolute with
  | true => exact absurd (by decide) bare
  | false =>
    obtain rfl := skipSymbol_eq_false skipped
    obtain ⟨token, rfl, isFirst⟩ := identifier_eq_ok identified
    refine ⟨token, rfl, ?_⟩
    rw [isFirst]
    simpa using joined

section

variable {typeName : String} {following : Parser α}

/-- What follows the name of a field's type, whether or not that type is refused. -/
def afterType (typeToken : Token) (typeName : String) (following : Parser α) : Parser α := do
  let parameters ← nextIs '<'
  require (typeName ≠ "group" && !(typeName = "map" && parameters)) (.unsupported typeToken.position.line typeName)
  following

theorem hungry_require {condition : Bool} (holds : condition = true) (failure : Failure) (hungry : following.Hungry) :
    Hungry (do require condition failure; following) := by
  obtain ⟨expected, starved⟩ := hungry
  refine ⟨expected, ?_⟩
  rw [holds, bind_of_ok rfl]
  exact starved

theorem hungry_afterType (typeToken : Token) (other : typeName ≠ "group") (hungry : following.Hungry) :
    (afterType typeToken typeName following).Hungry := by
  have allowed : (typeName ≠ "group" && !(typeName = "map" && false)) = true := by simp [other]
  exact hungry_require allowed (.unsupported typeToken.position.line typeName) hungry

theorem decisive_afterType {typeToken : Token} (member : typeToken ∈ known) (typeName : String)
    (next : Decisive known following) (hungry : following.Hungry) :
    Decisive known (afterType typeToken typeName following) := by
  have stands := standsAt_unsupported typeToken typeName
  by_cases group : typeName = "group"
  · -- Refused whether or not a parameter list is seen.
    have refused (tokens : List Token) :
        afterType typeToken typeName following tokens = .error (.unsupported typeToken.position.line typeName) := by
      subst group
      cases tokens <;> rfl
    intro tokens failure _ failed
    rw [refused] at failed
    cases failed
    exact Or.inr ⟨⟨typeToken, List.mem_append_left _ member, stands⟩, fun more => refused _⟩
  · refine (patient_nextIs _).decisive.bind_of_ends (local_nextIs _) (fun parameters => ?_) ?_
    · exact (decisive_require member stands _).bind (free_require _ _ _) fun _ => next
    · intro tokens parameters _ read
      -- With nothing left there was nothing to look at, so no parameter list was seen.
      cases tokens with
      | nil =>
        cases read
        exact Or.inl (hungry_require (by simp [group]) _ hungry)
      | cons token tokens => cases read

end

theorem decisive_attributes (value : α) : Decisive known (do attributes; symbol ';'; pure value) :=
  patient_attributes.decisive.bindHungry local_attributes (fun _ => decisive_closing value) fun _ => ⟨_, rfl⟩

theorem decisive_field : Decisive known field := by
  refine patient_label.decisive.bindHungry local_label (fun label => ?_) fun _ => ⟨_, rfl⟩
  refine Decisive.peek_bind _ fun typeToken => ?_
  refine (decisive_dottedName _).bind_of_ends (local_dottedName _) (fun typeName => ?_) ?_
  · refine decisive_afterType List.mem_cons_self typeName ?_ ⟨_, rfl⟩
    refine (decisive_identifier _).bind (firm_identifier _).free fun name => ?_
    refine (decisive_symbol _).bind (firm_symbol _).free fun _ => Decisive.peek_bind _ fun numberToken => ?_
    refine (decisive_integer _).bind (firm_integer _).free fun written => ?_
    exact (decisive_demand List.mem_cons_self (standsAt_malformed numberToken _) _).bind (free_demand _ _ _) fun number =>
      decisive_attributes _
  · intro tokens typeName severable read
    have other : typeName ≠ "group" := by
      rintro rfl
      obtain ⟨token, rfl, isGroup⟩ := dottedName_eq_group read
      exact severable token rfl isGroup
    exact Or.inl (hungry_afterType typeToken other ⟨_, rfl⟩)

theorem decisive_enumValue (name : String) : Decisive known (enumValue name) := by
  refine (decisive_symbol _).bind (firm_symbol _).free fun _ => Decisive.peek_bind _ fun ordinalToken => ?_
  refine (decisive_integer _).bind (firm_integer _).free fun written => ?_
  exact (decisive_demand List.mem_cons_self (standsAt_malformed ordinalToken _) _).bind (free_demand _ _ _) fun ordinal =>
    decisive_attributes _

theorem decisive_messageItemAs (first : Token) (opening : MessageItem.Opening) :
    Decisive (first :: known) (messageItemAs first opening) := by
  cases opening with
  | empty => exact (decisive_symbol _).map _
  | setting => exact .next_bind _ fun _ => decisive_setting.map _
  | skipped => exact patient_skipStatement.decisive.map _
  | nested keyword => exact decisive_fail List.mem_cons_self (standsAt_unsupported first _)
  | field => exact decisive_field.map _
  | other => exact decisive_unexpected List.mem_cons_self _

theorem decisive_messageItem : Decisive known messageItem :=
  .peek_bind _ fun first => decisive_messageItemAs first _

theorem decisive_enumItemAs (first : Token) (opening : EnumItem.Opening) :
    Decisive (first :: known) (enumItemAs first opening) := by
  cases opening with
  | empty => exact decisive_pure _
  | setting => exact decisive_setting.map _
  | skipped => exact patient_skipStatement.decisive.map _
  | value name => exact (decisive_enumValue _).map _
  | other => exact decisive_unexpected List.mem_cons_self _

theorem decisive_enumItem : Decisive known enumItem :=
  .next_bind _ fun first => decisive_enumItemAs first _

theorem decisive_block {item : Parser α} (firm : Firm item item) (decisive : Decisive known item)
    (advances : item.Advances) : Decisive known (block item advances) := by
  intro tokens
  fun_induction block item advances tokens with
  | case1 =>
    intro failure _ failed
    cases failed
    exact Or.inl ⟨_, rfl⟩
  | case2 | case4 =>
    intro failure _ failed
    cases failed
  | case3 head tail inside cause parsed =>
    intro failure severable failed
    cases failed
    rw [Bool.not_eq_true] at inside
    rcases decisive severable parsed with asks | ⟨named, again⟩
    · exact Or.inl asks
    · exact Or.inr ⟨named, fun more => block_of_item_error inside (again more)⟩
  | case5 head tail inside first rest parsed _ cause continued ih =>
    intro failure severable failed
    cases failed
    rw [Bool.not_eq_true] at inside
    have behind := firm.local.suffix parsed
    rcases ih (severable.suffix behind) continued with asks | ⟨⟨token, member, stands⟩, again⟩
    · exact Or.inl asks
    · refine Or.inr ⟨⟨token, ?_, stands⟩, fun more => ?_⟩
      · rw [List.mem_append] at member ⊢
        exact member.imp_right fun later => behind.subset later
      · have reread : item (head :: (tail ++ more)) = .ok (first, rest ++ more) := firm.free.append parsed more
        rw [List.cons_append, block_of_item inside reread, again more]
        rfl

theorem decisive_statementAs (packageSeen : Bool) (first : Token) (opening : Statement.Opening) :
    Decisive (first :: known) (statementAs packageSeen first opening) := by
  cases opening with
  | empty => exact decisive_pure _
  | version =>
    exact (decisive_symbol _).bind (firm_symbol _).free fun _ => (decisive_quoted _).bind (firm_quoted _).free fun _ =>
      decisive_closing _
  | package =>
    refine (decisive_require List.mem_cons_self (standsAt_malformed first _) _).bind (free_require _ _ _) fun _ => ?_
    exact (decisive_dottedName _).bindHungry (local_dottedName _) (fun _ => decisive_closing _) fun _ => ⟨_, rfl⟩
  | imported =>
    exact (patient_skipWord _).decisive.bindHungry (local_skipWord _)
      (fun _ => (decisive_quoted _).bind (firm_quoted _).free fun _ => decisive_closing _) fun _ => ⟨_, rfl⟩
  | setting => exact decisive_setting.map _
  | message =>
    exact (decisive_identifier _).bind (firm_identifier _).free fun _ =>
      (decisive_symbol _).bind (firm_symbol _).free fun _ =>
      (decisive_block firm_messageItem decisive_messageItem _).map _
  | enumeration =>
    exact (decisive_identifier _).bind (firm_identifier _).free fun _ =>
      (decisive_symbol _).bind (firm_symbol _).free fun _ =>
      (decisive_block firm_enumItem decisive_enumItem _).map _
  | unsupported keyword => exact decisive_fail List.mem_cons_self (standsAt_unsupported first _)
  | other => exact decisive_unexpected List.mem_cons_self _

theorem decisive_statement (packageSeen : Bool) : Decisive known (statement packageSeen) :=
  .next_bind _ fun first => decisive_statementAs packageSeen first _

end

theorem statements_append_error {packageSeen : Bool} {tokens : List Token} {failure : Failure}
    (severable : Severable tokens) (failed : statements packageSeen tokens = .error failure) :
    (∃ expected, failure = .unexpectedEnd expected) ∨
      (∃ token ∈ tokens, failure.StandsAt token) ∧ ∀ more, statements packageSeen (tokens ++ more) = .error failure := by
  fun_induction statements packageSeen tokens with
  | case1 | case3 => cases failed
  | case2 packageSeen head tail cause parsed =>
    cases failed
    have decisive : Decisive [] (statement packageSeen) := decisive_statement packageSeen
    rcases decisive severable parsed with asks | ⟨named, again⟩
    · exact Or.inl asks
    · exact Or.inr ⟨named, fun more => statements_of_statement_error (again more)⟩
  | case4 packageSeen head tail first rest parsed _ cause continued ih =>
    cases failed
    have behind := (firm_statement packageSeen).local.suffix parsed
    rcases ih (severable.suffix behind) continued with asks | ⟨⟨token, member, stands⟩, again⟩
    · exact Or.inl asks
    · refine Or.inr ⟨⟨token, behind.subset member, stands⟩, fun more => ?_⟩
      rw [statements_of_statement ((firm_statement packageSeen).free.append parsed more), again more]
      rfl

end Parser

namespace SchemaFile

theorem ofTokens_of_error {tokens : List Token} {failure : Failure}
    (failed : Parser.statements false tokens = .error failure) (identifier : Identifier) :
    ofTokens identifier tokens = .error (failure.inSource identifier) := by
  rw [ofTokens, failed]

theorem ofTokens_eq_error {identifier : Identifier} {tokens : List Token} {error : ParseError}
    (failed : ofTokens identifier tokens = .error error) :
    ∃ failure, Parser.statements false tokens = .error failure ∧ error = failure.inSource identifier := by
  cases read : Parser.statements false tokens with
  | ok statements =>
    rw [ofTokens, read] at failed
    cases failed
  | error failure =>
    rw [ofTokens_of_error read] at failed
    cases failed
    exact ⟨failure, rfl, rfl⟩

/-- Tokens that are refused, and do not merely run out, are refused for good: whatever follows, the error
is the same, and it names one of them. So any front of tokens that can be read is read or asks for more. -/
theorem ofTokens_refusal_final (identifier : Identifier) {tokens : List Token}
    (severable : ∀ token ∈ tokens.getLast?, token.kind ≠ .identifier "group") :
    (∀ error, ofTokens identifier tokens = .error error → error.isRefusal = true →
      (∀ more, ofTokens identifier (tokens ++ more) = .error error) ∧ ∃ token ∈ tokens, error.StandsAt token) ∧
    ∀ more file, ofTokens identifier (tokens ++ more) = .ok file →
      (∃ front, ofTokens identifier tokens = .ok front) ∨
        ∃ expected, ofTokens identifier tokens = .error (.unexpectedEnd identifier expected) := by
  have final : ∀ error, ofTokens identifier tokens = .error error → error.isRefusal = true →
      (∀ more, ofTokens identifier (tokens ++ more) = .error error) ∧ ∃ token ∈ tokens, error.StandsAt token := by
    intro error failed refusal
    obtain ⟨failure, broken, rfl⟩ := ofTokens_eq_error failed
    rcases Parser.statements_append_error severable broken with ⟨expected, rfl⟩ | ⟨⟨token, member, stands⟩, again⟩
    · cases refusal
    · exact ⟨fun more => ofTokens_of_error (again more) identifier, token, member, stands identifier⟩
  refine ⟨final, fun more file parsed => ?_⟩
  cases front : ofTokens identifier tokens with
  | ok file => exact Or.inl ⟨file, rfl⟩
  | error error =>
    right
    obtain ⟨failure, -, rfl⟩ := ofTokens_eq_error front
    cases failure with
    | unexpectedEnd expected => exact ⟨expected, rfl⟩
    | malformed _ _ | unsupported _ _ =>
      have again := (final _ front rfl).1 more
      rw [parsed] at again
      cases again

/-- A type with parameters is refused where it stands, also before tokens that would close everything. A
literal that more literals may follow is no reason for a refusal. -/
theorem ofTokens_refusal_final_ahead :
    let named (kinds : List Token.Kind) : List Token := kinds.map fun kind => ⟨kind, ⟨1, 1⟩⟩
    let mapped : List Token :=
      named [.identifier "message", .identifier "M", .symbol '\x7b'] ++ [⟨.identifier "map", ⟨2, 3⟩⟩, ⟨.symbol '<', ⟨2, 6⟩⟩]
    let broken : List Token := named [.identifier "option", .identifier "o", .symbol '=', .quoted "a"]
    let closing : List Token := named [.quoted "b", .symbol ';']
    ((∀ more, ofTokens (.named "a") (mapped ++ more) = .error (.unsupported (.named "a") 2 "map")) ∧
      ∃ token ∈ mapped, token.position.line = 2) ∧
    ofTokens (.named "a") (broken ++ closing) = .ok ⟨.named "a", none, "", [], [⟨"o", "ab"⟩], [], []⟩ ∧
    ((∃ front, ofTokens (.named "a") broken = .ok front) ∨
      ∃ expected, ofTokens (.named "a") broken = .error (.unexpectedEnd (.named "a") expected)) := by
  intro named mapped broken closing
  have parsed : ofTokens (.named "a") (broken ++ closing) = .ok ⟨.named "a", none, "", [], [⟨"o", "ab"⟩], [], []⟩ := by
    decide +kernel
  have refused := (ofTokens_refusal_final (.named "a") (by decide)).1 (.unsupported (.named "a") 2 "map")
    (by decide +kernel : ofTokens (.named "a") mapped = _) rfl
  have incomplete := (ofTokens_refusal_final (.named "a") (by decide)).2 closing _ parsed
  exact ⟨refused, parsed, incomplete⟩

end SchemaFile

end SchemaMarshal
