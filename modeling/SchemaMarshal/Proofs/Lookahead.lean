import SchemaMarshal.Proofs.Reading

/-! How far the readers look.

What a reader returns depends on the kinds of the tokens it takes, not on where they stand, and on the
kind of at most one token behind them. A whole statement ends with a token of its own, so it depends
on none behind it: this is what lets two sequences of statements be read as one.
-/

set_option autoImplicit false

namespace SchemaMarshal.Parser

variable {α β : Type}

/-- Tokens of the kinds of `taken` are read as `value`, and `more` behind them is left. -/
def Repeats (reader : Parser α) (taken : List Token) (value : α) (more : List Token) : Prop :=
  ∀ ⦃moved : List Token⦄, moved.map (·.kind) = taken.map (·.kind) → reader (moved ++ more) = .ok (value, more)

def nextKind (tokens : List Token) : Option Token.Kind := tokens.head?.map (·.kind)

/-- What `reader` reads, `other` reads wherever it stands and before any token of the same kind. Two
readers are compared because the failures they prepare may name positions. -/
def Local (reader other : Parser α) : Prop :=
  ∀ ⦃tokens : List Token⦄ ⦃value : α⦄ ⦃rest : List Token⦄, reader tokens = .ok (value, rest) →
    ∃ taken, tokens = taken ++ rest ∧ ∀ more, nextKind more = nextKind rest → other.Repeats taken value more

/-- What `reader` reads, `other` reads wherever it stands and whatever follows. -/
def Free (reader other : Parser α) : Prop :=
  ∀ ⦃tokens : List Token⦄ ⦃value : α⦄ ⦃rest : List Token⦄, reader tokens = .ok (value, rest) →
    ∃ taken, tokens = taken ++ rest ∧ ∀ more, other.Repeats taken value more

/-- As `Free`, and at least one token is taken. -/
def Firm (reader other : Parser α) : Prop :=
  ∀ ⦃tokens : List Token⦄ ⦃value : α⦄ ⦃rest : List Token⦄, reader tokens = .ok (value, rest) →
    ∃ taken, taken ≠ [] ∧ tokens = taken ++ rest ∧ ∀ more, other.Repeats taken value more

theorem Free.local {reader other : Parser α} (free : Free reader other) : Local reader other := by
  intro tokens value rest read
  obtain ⟨taken, split, repeats⟩ := free read
  exact ⟨taken, split, fun more _ => repeats more⟩

theorem Firm.free {reader other : Parser α} (firm : Firm reader other) : Free reader other := by
  intro tokens value rest read
  obtain ⟨taken, -, split, repeats⟩ := firm read
  exact ⟨taken, split, repeats⟩

theorem Firm.local {reader other : Parser α} (firm : Firm reader other) : Local reader other := firm.free.local

theorem repeats_nil {reader : Parser α} {value : α} {more : List Token} (leaves : reader more = .ok (value, more)) :
    reader.Repeats [] value more := by
  intro moved same
  rw [List.map_eq_nil_iff.mp same]
  exact leaves

theorem Repeats.cons {reader next : Parser α} {token : Token} {taken more : List Token} {value : α}
    (steps : ∀ moved : Token, moved.kind = token.kind → ∀ rest, reader (moved :: rest) = next rest)
    (repeats : next.Repeats taken value more) : reader.Repeats (token :: taken) value more := by
  intro moved same
  obtain ⟨head, tail, rfl, sameHead, sameTail⟩ := List.map_eq_cons_iff.mp same
  exact (steps head sameHead (tail ++ more)).trans (repeats sameTail)

theorem repeats_singleton {reader : Parser α} {token : Token} {value : α}
    (takes : ∀ moved : Token, moved.kind = token.kind → ∀ rest, reader (moved :: rest) = .ok (value, rest))
    (more : List Token) : reader.Repeats [token] value more := by
  have ended : (pure value : Parser α).Repeats [] value more := repeats_nil rfl
  exact Repeats.cons takes ended

theorem Repeats.bind {reader : Parser α} {following : α → Parser β} {first second more : List Token} {value : α}
    {result : β}
    (repeats : ∀ moved : List Token, moved.map (·.kind) = second.map (·.kind) →
      reader.Repeats first value (moved ++ more))
    (continues : (following value).Repeats second result more) :
    (reader >>= following).Repeats (first ++ second) result more := by
  intro moved same
  rw [List.map_append] at same
  obtain ⟨front, back, rfl, sameFront, sameBack⟩ := List.map_eq_append_iff.mp same
  rw [List.append_assoc]
  exact bind_eq_ok.mpr ⟨value, back ++ more, repeats back sameBack sameFront, continues sameBack⟩

theorem nextKind_append {moved taken : List Token} (same : moved.map (·.kind) = taken.map (·.kind))
    (present : taken ≠ []) (more rest : List Token) : nextKind (moved ++ more) = nextKind (taken ++ rest) := by
  obtain ⟨token, tail, rfl⟩ := List.exists_cons_of_ne_nil present
  obtain ⟨head, left, rfl, sameHead, -⟩ := List.map_eq_cons_iff.mp same
  exact congrArg some sameHead

section

variable {reader other : Parser α} {following otherwise : α → Parser β}

theorem Local.bind (first : Local reader other) (next : ∀ value, Local (following value) (otherwise value)) :
    Local (reader >>= following) (other >>= otherwise) := by
  intro tokens result rest success
  obtain ⟨value, middle, read, continued⟩ := bind_eq_ok.mp success
  obtain ⟨taken, rfl, repeats⟩ := first read
  obtain ⟨later, rfl, continues⟩ := next value continued
  refine ⟨taken ++ later, (List.append_assoc ..).symm, fun more sameNext => ?_⟩
  refine Repeats.bind (fun moved same => repeats _ ?_) (continues more sameNext)
  -- If the second reader takes nothing, the first one looks at what follows both.
  cases later with
  | nil =>
    rw [List.map_eq_nil_iff.mp same]
    exact sameNext
  | cons token later => exact nextKind_append same (by simp) more rest

theorem Local.firm (first : Local reader other) (next : ∀ value, Firm (following value) (otherwise value)) :
    Firm (reader >>= following) (other >>= otherwise) := by
  intro tokens result rest success
  obtain ⟨value, middle, read, continued⟩ := bind_eq_ok.mp success
  obtain ⟨taken, rfl, repeats⟩ := first read
  obtain ⟨later, present, rfl, continues⟩ := next value continued
  refine ⟨taken ++ later, by simp [present], (List.append_assoc ..).symm, fun more => ?_⟩
  exact Repeats.bind (fun moved same => repeats _ (nextKind_append same present more rest)) (continues more)

theorem Free.bind (first : Free reader other) (next : ∀ value, Free (following value) (otherwise value)) :
    Free (reader >>= following) (other >>= otherwise) := by
  intro tokens result rest success
  obtain ⟨value, middle, read, continued⟩ := bind_eq_ok.mp success
  obtain ⟨taken, rfl, repeats⟩ := first read
  obtain ⟨later, rfl, continues⟩ := next value continued
  exact ⟨taken ++ later, (List.append_assoc ..).symm, fun more =>
    Repeats.bind (fun moved _ => repeats (moved ++ more)) (continues more)⟩

theorem Firm.bind (first : Firm reader other) (next : ∀ value, Free (following value) (otherwise value)) :
    Firm (reader >>= following) (other >>= otherwise) := by
  intro tokens result rest success
  obtain ⟨value, middle, read, continued⟩ := bind_eq_ok.mp success
  obtain ⟨taken, present, rfl, repeats⟩ := first read
  obtain ⟨later, rfl, continues⟩ := next value continued
  exact ⟨taken ++ later, by simp [present], (List.append_assoc ..).symm, fun more =>
    Repeats.bind (fun moved _ => repeats (moved ++ more)) (continues more)⟩

end

theorem Local.suffix {reader : Parser α} (reads : Local reader reader) {tokens rest : List Token} {value : α}
    (read : reader tokens = .ok (value, rest)) : rest <:+ tokens := by
  obtain ⟨taken, split, -⟩ := reads read
  exact ⟨taken, split.symm⟩

theorem Local.append {reader : Parser α} (reads : Local reader reader) {tokens rest : List Token} {value : α}
    (read : reader tokens = .ok (value, rest)) (left : rest ≠ []) (more : List Token) :
    reader (tokens ++ more) = .ok (value, rest ++ more) := by
  obtain ⟨taken, rfl, repeats⟩ := reads read
  rw [List.append_assoc]
  refine repeats (rest ++ more) ?_ rfl
  rw [nextKind, List.head?_append_of_ne_nil _ left, nextKind]

theorem Free.append {reader : Parser α} (reads : Free reader reader) {tokens rest : List Token} {value : α}
    (read : reader tokens = .ok (value, rest)) (more : List Token) :
    reader (tokens ++ more) = .ok (value, rest ++ more) := by
  obtain ⟨taken, rfl, repeats⟩ := reads read
  rw [List.append_assoc]
  exact repeats (rest ++ more) rfl

theorem free_pure (value : α) : Free (pure value : Parser α) (pure value) := by
  intro tokens result rest success
  cases success
  exact ⟨[], rfl, fun more => repeats_nil rfl⟩

theorem firm_fail (failure otherwise : Failure) : Firm (fail failure : Parser α) (fail otherwise) :=
  fun _ _ _ success => nomatch success

theorem free_require (condition : Bool) (failure otherwise : Failure) :
    Free (require condition failure) (require condition otherwise) := by
  cases condition with
  | true => exact free_pure ()
  | false => exact (firm_fail failure otherwise).free

theorem free_demand (value? : Option α) (failure otherwise : Failure) :
    Free (demand value? failure) (demand value? otherwise) := by
  cases value? with
  | some value => exact free_pure value
  | none => exact (firm_fail failure otherwise).free

section

variable {following otherwise : Token → Parser α} (expected : Expectation)

theorem next_bind_eq_ok {tokens rest : List Token} {value : α}
    (success : (next expected >>= following) tokens = .ok (value, rest)) :
    ∃ token later, tokens = token :: later ∧ following token later = .ok (value, rest) := by
  obtain ⟨token, later, read, continued⟩ := bind_eq_ok.mp success
  cases tokens with
  | nil => cases read
  | cons head tail =>
    cases read
    exact ⟨token, later, rfl, continued⟩

-- The reader that follows sees the token and so its position, but no position is part of a value.
theorem repeats_next_bind {token : Token} {taken more : List Token} {value : α}
    (continues : ∀ moved : Token, token.kind = moved.kind → (otherwise moved).Repeats taken value more) :
    (next expected >>= otherwise).Repeats (token :: taken) value more := by
  intro moved same
  obtain ⟨head, tail, rfl, sameHead, sameTail⟩ := List.map_eq_cons_iff.mp same
  exact bind_eq_ok.mpr ⟨head, tail ++ more, rfl, continues head sameHead.symm sameTail⟩

theorem Firm.next_bind
    (continues : ∀ token moved : Token, token.kind = moved.kind → Free (following token) (otherwise moved)) :
    Firm (next expected >>= following) (next expected >>= otherwise) := by
  intro tokens value rest success
  obtain ⟨token, later, rfl, continued⟩ := next_bind_eq_ok expected success
  obtain ⟨taken, rfl, -⟩ := continues token token rfl continued
  refine ⟨token :: taken, by simp, rfl, fun more => repeats_next_bind expected fun moved same => ?_⟩
  obtain ⟨again, split, repeats⟩ := continues token moved same continued
  rw [List.append_cancel_right split]
  exact repeats more

theorem Local.next_bind
    (continues : ∀ token moved : Token, token.kind = moved.kind → Local (following token) (otherwise moved)) :
    Local (next expected >>= following) (next expected >>= otherwise) := by
  intro tokens value rest success
  obtain ⟨token, later, rfl, continued⟩ := next_bind_eq_ok expected success
  obtain ⟨taken, rfl, -⟩ := continues token token rfl continued
  refine ⟨token :: taken, rfl, fun more sameNext => repeats_next_bind expected fun moved same => ?_⟩
  obtain ⟨again, split, repeats⟩ := continues token moved same continued
  rw [List.append_cancel_right split]
  exact repeats more sameNext

theorem Firm.peek_bind
    (continues : ∀ token moved : Token, token.kind = moved.kind → Firm (following token) (otherwise moved)) :
    Firm (peek expected >>= following) (peek expected >>= otherwise) := by
  intro tokens value rest success
  obtain ⟨token, later, read, continued⟩ := bind_eq_ok.mp success
  cases tokens with
  | nil => cases read
  | cons head tail =>
    cases read
    obtain ⟨taken, present, split, -⟩ := continues token token rfl continued
    refine ⟨taken, present, split, fun more moved same => ?_⟩
    obtain ⟨first, behind, rfl⟩ := List.exists_cons_of_ne_nil present
    obtain ⟨movedFirst, movedBehind, rfl, sameFirst, -⟩ := List.map_eq_cons_iff.mp same
    have sameToken : token.kind = movedFirst.kind := by rw [sameFirst, List.head_eq_of_cons_eq split]
    obtain ⟨again, -, splitAgain, repeats⟩ := continues token movedFirst sameToken continued
    rw [List.append_cancel_right (split.symm.trans splitAgain)] at same
    exact bind_eq_ok.mpr ⟨movedFirst, _, rfl, repeats more same⟩

end

/-- A reader that takes or leaves one token, as the kind of that token says. -/
theorem local_of_head {reader : Parser α} {absent : α} (ended : reader [] = .ok (absent, []))
    (decides : ∀ kind, ∃ value,
      (∀ token rest, token.kind = kind → reader (token :: rest) = .ok (value, rest)) ∨
      (∀ token rest, token.kind = kind → reader (token :: rest) = .ok (value, token :: rest))) :
    Local reader reader := by
  rintro (_ | ⟨token, tokens⟩) result rest success
  · cases ended.symm.trans success
    refine ⟨[], rfl, fun more sameNext => repeats_nil ?_⟩
    cases more with
    | nil => exact ended
    | cons next more => cases sameNext
  · obtain ⟨value, takes | leaves⟩ := decides token.kind
    · cases (takes token tokens rfl).symm.trans success
      exact ⟨[token], rfl, fun more _ => repeats_singleton (fun moved same rest => takes moved rest same) more⟩
    · cases (leaves token tokens rfl).symm.trans success
      refine ⟨[], rfl, fun more sameNext => repeats_nil ?_⟩
      cases more with
      | nil => cases sameNext
      | cons next more => exact leaves next more (Option.some.inj sameNext)

theorem local_nextIs (character : Char) : Local (nextIs character) (nextIs character) := by
  refine local_of_head rfl fun kind => ⟨kind = .symbol character, Or.inr ?_⟩
  rintro token rest rfl
  rfl

theorem local_skipSymbol (character : Char) : Local (skipSymbol character) (skipSymbol character) := by
  apply local_of_head rfl
  intro kind
  by_cases wanted : kind = .symbol character
  · exact ⟨true, Or.inl fun token rest same => by simp [skipSymbol, Token.isSymbol, same, wanted]⟩
  · exact ⟨false, Or.inr fun token rest same => by simp [skipSymbol, Token.isSymbol, same, wanted]⟩

theorem local_skipWord (words : List String) : Local (skipWord words) (skipWord words) := by
  apply local_of_head rfl
  intro kind
  refine ⟨(), ?_⟩
  by_cases listed : ∃ word ∈ words, kind = .identifier word
  · exact Or.inl fun token rest same => by simpa [skipWord, Token.isIdentifier, same] using listed
  · exact Or.inr fun token rest same => by simpa [skipWord, Token.isIdentifier, same] using listed

theorem local_label : Local label label := by
  apply local_of_head rfl
  intro kind
  cases kind with
  | identifier text =>
    cases keyword : Label.ofKeyword? text with
    | some found => exact ⟨found, Or.inl fun token rest same => by simp [label, same, keyword]⟩
    | none => exact ⟨.implicit, Or.inr fun token rest same => by simp [label, same, keyword]⟩
  | integer _ | decimal _ | quoted _ | symbol _ =>
    exact ⟨.implicit, Or.inr fun token rest same => by simp [label, same]⟩

theorem firm_symbol (character : Char) : Firm (symbol character) (symbol character) := by
  apply Firm.next_bind
  intro token moved same
  rw [Token.isSymbol, Token.isSymbol, same]
  exact free_require _ _ _

theorem firm_identifier (expected : Expectation) : Firm (identifier expected) (identifier expected) := by
  apply Firm.next_bind
  intro token moved same
  rw [same]
  split
  · exact free_pure _
  · exact (firm_fail _ _).free

theorem firm_quoted (expected : Expectation) : Firm (quoted expected) (quoted expected) := by
  apply Firm.next_bind
  intro token moved same
  rw [same]
  split
  · exact free_pure _
  · exact (firm_fail _ _).free

theorem isSymbol_of_kind {token moved : Token} (same : moved.kind = token.kind) (character : Char) :
    moved.isSymbol character = token.isSymbol character := by
  rw [Token.isSymbol, Token.isSymbol, same]

theorem nameParts_of_not_point {tokens : List Token} (other : nextKind tokens ≠ some (.symbol '.'))
    (expected : Expectation) : nameParts expected tokens = .ok ("", tokens) := by
  have plain {token : Token} {rest : List Token} (first : nextKind (token :: rest) ≠ some (.symbol '.')) :
      token.isSymbol '.' = false := by simpa [nextKind, Token.isSymbol] using first
  cases tokens with
  | nil => rfl
  | cons token rest =>
    cases rest with
    | nil => simp [nameParts, plain other]
    | cons part rest => simp [nameParts, plain other]

theorem local_nameParts (expected : Expectation) : Local (nameParts expected) (nameParts expected) := by
  -- Where no point comes next, nothing is taken.
  have stops {tokens : List Token} (other : nextKind tokens ≠ some (.symbol '.')) :
      ∃ taken, tokens = taken ++ tokens ∧
        ∀ more, nextKind more = nextKind tokens → (nameParts expected).Repeats taken "" more := by
    exact ⟨[], rfl, fun more sameNext => repeats_nil (nameParts_of_not_point (sameNext ▸ other) expected)⟩
  intro tokens
  fun_induction nameParts expected tokens with
  | case1 =>
    intro value rest success
    cases success
    exact stops (by simp [nextKind])
  | case2 | case5 | case6 =>
    intro value rest success
    cases success
  | case3 token other =>
    intro value rest success
    cases success
    exact stops (by simpa [nextKind, Token.isSymbol] using other)
  | case7 token part rest other =>
    intro value last success
    cases success
    exact stops (by simpa [nextKind, Token.isSymbol] using other)
  | case4 token part rest point text isText parts left parsed ih =>
    intro value last success
    cases success
    obtain ⟨taken, rfl, repeats⟩ := ih parsed
    refine ⟨token :: part :: taken, rfl, fun more sameNext moved same => ?_⟩
    obtain ⟨head, tail, rfl, sameHead, sameTail⟩ := List.map_eq_cons_iff.mp same
    obtain ⟨second, tail, rfl, sameSecond, sameRest⟩ := List.map_eq_cons_iff.mp sameTail
    rw [← isSymbol_of_kind sameHead] at point
    simp only [List.cons_append, nameParts, point, if_true, sameSecond, isText, repeats more sameNext sameRest]

theorem local_dottedName (expected : Expectation) : Local (dottedName expected) (dottedName expected) :=
  (local_skipSymbol _).bind fun _ => (firm_identifier _).local.bind fun _ => (local_nameParts _).bind fun _ =>
    (free_pure _).local

theorem local_adjacentStrings : Local adjacentStrings adjacentStrings := by
  intro tokens
  fun_induction adjacentStrings tokens with
  | case1 =>
    intro value rest success
    cases success
    refine ⟨[], rfl, fun more sameNext => repeats_nil ?_⟩
    cases more with
    | nil => rfl
    | cons next more => cases sameNext
  | case2 token rest written isQuoted values left parsed ih =>
    intro value last success
    cases success
    obtain ⟨taken, rfl, repeats⟩ := ih parsed
    refine ⟨token :: taken, rfl, fun more sameNext moved same => ?_⟩
    obtain ⟨head, tail, rfl, sameHead, sameTail⟩ := List.map_eq_cons_iff.mp same
    simp only [List.cons_append, adjacentStrings, sameHead, isQuoted, repeats more sameNext sameTail]
  | case3 =>
    intro value rest success
    cases success
  | case4 token rest other =>
    intro value last success
    cases success
    refine ⟨[], rfl, fun more sameNext => repeats_nil ?_⟩
    cases more with
    | nil => rfl
    | cons next more =>
      rw [adjacentStrings]
      split
      · rename_i isQuoted
        exact absurd ((Option.some.inj sameNext).symm.trans isQuoted) (other _)
      · rfl

theorem firm_unsigned : Firm unsigned unsigned := by
  apply Firm.next_bind
  intro token moved same
  rw [same]
  split
  · exact free_pure _
  · exact free_pure _
  · exact (free_require _ _ _).bind fun _ => free_pure _
  · exact (firm_fail _ _).free

theorem local_constant : Local constant constant := by
  apply Local.next_bind
  intro token moved same
  rw [same]
  split
  · exact local_adjacentStrings.bind fun _ => (free_pure _).local
  · exact (free_pure _).local
  · exact (free_pure _).local
  · exact (free_pure _).local
  · exact firm_unsigned.local.bind fun _ => (free_pure _).local
  · exact firm_unsigned.local.bind fun _ => (free_pure _).local
  · exact (firm_fail _ _).local
  · exact (firm_fail _ _).local

theorem firm_integer (expected : Expectation) : Firm (integer expected) (integer expected) := by
  refine (local_skipSymbol _).firm fun negative => Firm.next_bind _ ?_
  intro token moved same
  rw [same]
  split
  · exact (free_demand _ _ _).bind fun _ => free_pure _
  · exact (firm_fail _ _).free

theorem firm_skipGroup (depth : Nat) : Firm (skipGroup depth) (skipGroup depth) := by
  intro tokens
  fun_induction skipGroup depth tokens with
  | case1 =>
    intro value rest success
    cases success
  | case3 token rest opens closes =>
    intro value last success
    cases success
    refine ⟨[token], by simp, rfl, repeats_singleton fun moved same rest => ?_⟩
    simp only [skipGroup, isSymbol_of_kind same, opens, closes]
    rfl
  | case2 depth token rest opens ih =>
    intro value last success
    obtain ⟨taken, -, rfl, repeats⟩ := ih success
    refine ⟨token :: taken, by simp, rfl, fun more => .cons (fun moved same rest => ?_) (repeats more)⟩
    simp only [skipGroup, isSymbol_of_kind same, opens, if_true]
  | case4 token rest opens closes depth ih | case5 depth token rest opens closes ih =>
    intro value last success
    obtain ⟨taken, -, rfl, repeats⟩ := ih success
    refine ⟨token :: taken, by simp, rfl, fun more => .cons (fun moved same rest => ?_) (repeats more)⟩
    simp only [skipGroup, isSymbol_of_kind same, opens, closes]
    rfl

theorem firm_skipStatement : Firm skipStatement skipStatement := by
  intro tokens
  fun_induction skipStatement tokens with
  | case1 =>
    intro value rest success
    cases success
  | case2 token rest ends =>
    intro value last success
    cases success
    refine ⟨[token], by simp, rfl, repeats_singleton fun moved same rest => ?_⟩
    exact if_pos ((isSymbol_of_kind same ';').trans ends)
  | case3 token rest inside ih =>
    intro value last success
    obtain ⟨taken, -, rfl, repeats⟩ := ih success
    refine ⟨token :: taken, by simp, rfl, fun more => .cons (fun moved same rest => ?_) (repeats more)⟩
    rw [← isSymbol_of_kind same] at inside
    exact if_neg inside

theorem local_attributes : Local attributes attributes :=
  (local_skipSymbol _).bind fun opened => by
    split
    · exact (firm_skipGroup 0).local
    · exact (free_pure ()).local

theorem local_settingName : Local settingName settingName :=
  (local_skipSymbol _).bind fun custom => by
    split
    · exact (local_dottedName _).bind fun _ => (firm_symbol _).local.bind fun _ =>
        (local_nameParts _).bind fun _ => (free_pure _).local
    · exact (firm_identifier _).local.bind fun _ => (local_nameParts _).bind fun _ => (free_pure _).local

theorem firm_setting : Firm setting setting :=
  local_settingName.firm fun _ => (firm_symbol _).local.firm fun _ => local_constant.firm fun _ =>
    (firm_symbol _).bind fun _ => free_pure _

theorem firm_field : Firm field field :=
  local_label.firm fun _ => Firm.peek_bind _ fun _ _ _ => (local_dottedName _).firm fun _ =>
    (local_nextIs _).firm fun _ => (free_require _ _ _).local.firm fun _ => (firm_identifier _).local.firm fun _ =>
    (firm_symbol _).local.firm fun _ => Firm.peek_bind _ fun _ _ _ =>
    (firm_integer _).local.firm fun _ => (free_demand _ _ _).local.firm fun _ => local_attributes.firm fun _ =>
    (firm_symbol _).bind fun _ => free_pure _

theorem firm_enumValue (name : String) : Firm (enumValue name) (enumValue name) :=
  (firm_symbol _).local.firm fun _ => Firm.peek_bind _ fun _ _ _ =>
    (firm_integer _).local.firm fun _ => (free_demand _ _ _).local.firm fun _ => local_attributes.firm fun _ =>
    (firm_symbol _).bind fun _ => free_pure _

/-- The first token decides by its kind alone how an item or a statement goes on. -/
theorem firm_messageItemAs (first moved : Token) (opening : MessageItem.Opening) :
    Firm (messageItemAs first opening) (messageItemAs moved opening) := by
  cases opening with
  | empty => exact (firm_symbol _).bind fun _ => free_pure _
  | setting => exact Firm.next_bind _ fun _ _ _ => firm_setting.free.bind fun _ => free_pure _
  | skipped => exact firm_skipStatement.bind fun _ => free_pure _
  | nested keyword => exact firm_fail _ _
  | field => exact firm_field.bind fun _ => free_pure _
  | other => exact firm_fail _ _

theorem firm_messageItem : Firm messageItem messageItem := by
  apply Firm.peek_bind
  intro first moved same
  rw [same]
  exact firm_messageItemAs first moved _

theorem free_enumItemAs (first moved : Token) (opening : EnumItem.Opening) :
    Free (enumItemAs first opening) (enumItemAs moved opening) := by
  cases opening with
  | empty => exact free_pure _
  | setting => exact firm_setting.free.bind fun _ => free_pure _
  | skipped => exact firm_skipStatement.free.bind fun _ => free_pure _
  | value name => exact (firm_enumValue _).free.bind fun _ => free_pure _
  | other => exact (firm_fail _ _).free

theorem firm_enumItem : Firm enumItem enumItem := by
  apply Firm.next_bind
  intro first moved same
  rw [same]
  exact free_enumItemAs first moved _

theorem free_block {item : Parser α} (firm : Firm item item) (advances : item.Advances) :
    Free (block item advances) (block item advances) := by
  intro tokens
  fun_induction block item advances tokens with
  | case1 | case3 | case5 =>
    intro value rest success
    cases success
  | case2 head tail closes =>
    intro value last success
    cases success
    refine ⟨[head], rfl, repeats_singleton fun moved same rest => ?_⟩
    rw [← isSymbol_of_kind same] at closes
    rw [block, if_pos closes]
  | case4 head tail inside first rest parsed _ items left continued ih =>
    intro value last success
    cases success
    obtain ⟨taken, present, split, repeats⟩ := firm parsed
    obtain ⟨later, rfl, continues⟩ := ih continued
    refine ⟨taken ++ later, by rw [split, List.append_assoc], fun more moved same => ?_⟩
    rw [List.map_append] at same
    obtain ⟨front, back, rfl, sameFront, sameBack⟩ := List.map_eq_append_iff.mp same
    obtain ⟨opening, behind, rfl⟩ := List.exists_cons_of_ne_nil present
    obtain ⟨movedOpening, movedBehind, rfl, sameOpening, -⟩ := List.map_eq_cons_iff.mp sameFront
    rw [List.head_eq_of_cons_eq split, ← isSymbol_of_kind sameOpening] at inside
    have again := repeats (back ++ more) sameFront
    rw [List.append_assoc]
    exact block_cons (by simpa [Token.isSymbol] using inside) again (continues more sameBack)

theorem free_statementAs (packageSeen : Bool) (first moved : Token) (opening : Statement.Opening) :
    Free (statementAs packageSeen first opening) (statementAs packageSeen moved opening) := by
  cases opening with
  | empty => exact free_pure _
  | version =>
    exact (firm_symbol _).free.bind fun _ => (firm_quoted _).free.bind fun _ => (firm_symbol _).free.bind fun _ =>
      free_pure _
  | package =>
    exact (free_require _ _ _).bind fun _ => ((local_dottedName _).firm fun _ => (firm_symbol _).bind fun _ =>
      free_pure _).free
  | imported =>
    exact ((local_skipWord _).firm fun _ => (firm_quoted _).local.firm fun _ => (firm_symbol _).bind fun _ =>
      free_pure _).free
  | setting => exact firm_setting.free.bind fun _ => free_pure _
  | message =>
    exact (firm_identifier _).free.bind fun _ => (firm_symbol _).free.bind fun _ =>
      (free_block firm_messageItem _).bind fun _ => free_pure _
  | enumeration =>
    exact (firm_identifier _).free.bind fun _ => (firm_symbol _).free.bind fun _ =>
      (free_block firm_enumItem _).bind fun _ => free_pure _
  | unsupported keyword => exact (firm_fail _ _).free
  | other => exact (firm_fail _ _).free

theorem firm_statement (packageSeen : Bool) : Firm (statement packageSeen) (statement packageSeen) := by
  apply Firm.next_bind
  intro first moved same
  rw [same]
  exact free_statementAs packageSeen first moved _

end SchemaMarshal.Parser
