import Mathlib.Data.List.Forall2
import Mathlib.Data.Nat.Digits.Defs
import SchemaMarshal.Text.Numeral

/-! The numbers that integer literals denote.

`Denotes` gives the three spellings with the digits of their base, the most significant first. A literal is
read exactly if it denotes a number that fits in 63 bits, and the digits of a number denote it.
-/

set_option autoImplicit false

namespace SchemaMarshal.Numeral

/-- A character stands for a digit of the base, letters of either case for ten and above. -/
def IsDigit (base : Nat) (c : Char) (digit : Nat) : Prop :=
  digit < base ∧ (c = digit.digitChar ∨ c = digit.digitChar.toUpper)

/-- The number that a literal denotes, without a bound. -/
inductive Denotes : List Char → Nat → Prop
  | zero : Denotes ['0'] 0
  | decimal {letters : List Char} {digits : List Nat} (present : letters ≠ []) (plain : letters.head? ≠ some '0')
      (read : List.Forall₂ (IsDigit 10) letters digits) : Denotes letters (Nat.ofDigits 10 digits.reverse)
  | octal {letters : List Char} {digits : List Nat} (present : letters ≠ [])
      (read : List.Forall₂ (IsDigit 8) letters digits) : Denotes ('0' :: letters) (Nat.ofDigits 8 digits.reverse)
  | hexadecimal {mark : Char} {letters : List Char} {digits : List Nat} (marked : mark = 'x' ∨ mark = 'X')
      (present : letters ≠ []) (read : List.Forall₂ (IsDigit 16) letters digits) :
      Denotes ('0' :: mark :: letters) (Nat.ofDigits 16 digits.reverse)

theorem eq_ofNat_of_le {low c high : Char} (above : low ≤ c) (below : c ≤ high) :
    c = Char.ofNat (c.toNat - low.toNat + low.toNat) ∧ c.toNat - low.toNat ≤ high.toNat - low.toNat := by
  have lower : low.toNat ≤ c.toNat := above
  have upper : c.toNat ≤ high.toNat := below
  refine ⟨?_, by omega⟩
  rw [Nat.sub_add_cancel lower, Char.ofNat_toNat]

theorem digit?_eq_some_iff {base : Nat} (small : base ≤ 16) {c : Char} {digit : Nat} :
    digit? base c = some digit ↔ IsDigit base c digit := by
  constructor
  · intro read
    simp only [digit?, Option.ite_none_right_eq_some, Option.some.injEq] at read
    obtain ⟨below, same⟩ := read
    rw [same] at below
    refine ⟨below, ?_⟩
    simp only [Bool.and_eq_true, decide_eq_true_eq] at same
    split at same
    · rename_i range
      obtain ⟨shifted, bound⟩ := eq_ofNat_of_le range.1 range.2
      have table : ∀ digit ≤ 9, Char.ofNat (digit + '0'.toNat) = digit.digitChar := by decide
      rw [shifted, ← same]
      exact Or.inl (table _ bound)
    · split at same
      · rename_i range
        obtain ⟨shifted, bound⟩ := eq_ofNat_of_le range.1 range.2
        have table : ∀ digit ≤ 5, Char.ofNat (digit + 'a'.toNat) = (digit + 10).digitChar := by decide
        rw [shifted, ← same]
        exact Or.inl (table _ bound)
      · split at same
        · rename_i range
          obtain ⟨shifted, bound⟩ := eq_ofNat_of_le range.1 range.2
          have table : ∀ digit ≤ 5, Char.ofNat (digit + 'A'.toNat) = (digit + 10).digitChar.toUpper := by decide
          rw [shifted, ← same]
          exact Or.inr (table _ bound)
        · omega
  · rintro ⟨below, rfl | rfl⟩
    · have table : ∀ base ≤ 16, ∀ digit < base, digit? base digit.digitChar = some digit := by decide +kernel
      exact table base small digit below
    · have table : ∀ base ≤ 16, ∀ digit < base, digit? base digit.digitChar.toUpper = some digit := by decide +kernel
      exact table base small digit below

theorem mapM_digit?_eq_some_iff {base : Nat} (small : base ≤ 16) {letters : List Char} {digits : List Nat} :
    letters.mapM (digit? base) = some digits ↔ List.Forall₂ (IsDigit base) letters digits := by
  induction letters generalizing digits with
  | nil => simp [eq_comm]
  | cons c letters ih =>
    simp only [List.mapM_cons, Option.bind_eq_bind, Option.bind_eq_some_iff, digit?_eq_some_iff small, ih,
      List.forall₂_cons_left_iff]
    constructor
    · rintro ⟨digit, isDigit, others, read, same⟩
      exact ⟨digit, others, isDigit, read, (Option.some.inj same).symm⟩
    · rintro ⟨digit, others, isDigit, read, rfl⟩
      exact ⟨digit, isDigit, others, read, rfl⟩

theorem ofDigits_eq (base : Nat) (digits : List Nat) : ofDigits base digits = Nat.ofDigits base digits.reverse := by
  rw [ofDigits, Nat.ofDigits_eq_foldr, List.foldr_reverse]
  simp [Nat.add_comm, Nat.mul_comm]

theorem natural?_eq_some_iff {base : Nat} (small : base ≤ 16) {letters : List Char} {value : Nat} :
    natural? base letters = some value ↔ letters ≠ [] ∧ ∃ digits,
      List.Forall₂ (IsDigit base) letters digits ∧ value = Nat.ofDigits base digits.reverse := by
  cases letters with
  | nil => simp [natural?]
  | cons c letters =>
    simp only [natural?, Option.map_eq_some_iff, mapM_digit?_eq_some_iff small, ofDigits_eq, ne_eq, reduceCtorEq,
      not_false_eq_true, true_and, eq_comm (b := value)]

theorem spelled?_of_denotes {letters : List Char} {value : Nat} (denotes : Denotes letters value) :
    spelled? letters = some value := by
  cases denotes with
  | zero => rfl
  | decimal present plain read =>
    have natural := (natural?_eq_some_iff (by decide : 10 ≤ 16)).mpr ⟨present, _, read, rfl⟩
    unfold spelled?
    split
    · exact absurd rfl plain
    · exact absurd rfl plain
    · exact absurd rfl plain
    · exact natural
  | @octal letters digits present read =>
    have natural := (natural?_eq_some_iff (by decide : 8 ≤ 16)).mpr ⟨present, _, read, rfl⟩
    cases read with
    | nil => exact absurd rfl present
    | @cons first digit letters digits isDigit read =>
      -- The marks of hexadecimal literals are no octal digits.
      have readable := (digit?_eq_some_iff (by decide)).mpr isDigit
      have lower : digit? 8 'x' = none := by decide
      have upper : digit? 8 'X' = none := by decide
      unfold spelled?
      split
      · rename_i same
        cases same
        rw [lower] at readable
        cases readable
      · rename_i same
        cases same
        rw [upper] at readable
        cases readable
      · rename_i same
        cases same
        exact natural
      · rename_i other
        exact absurd rfl (other first letters)
  | hexadecimal marked present read =>
    have natural := (natural?_eq_some_iff (by decide : 16 ≤ 16)).mpr ⟨present, _, read, rfl⟩
    rcases marked with rfl | rfl
    · exact natural
    · exact natural

theorem denotes_of_spelled? {letters : List Char} {value : Nat} (spelled : spelled? letters = some value) :
    Denotes letters value := by
  unfold spelled? at spelled
  split at spelled
  · obtain ⟨present, digits, read, rfl⟩ := (natural?_eq_some_iff (by decide)).mp spelled
    exact .hexadecimal (Or.inl rfl) present read
  · obtain ⟨present, digits, read, rfl⟩ := (natural?_eq_some_iff (by decide)).mp spelled
    exact .hexadecimal (Or.inr rfl) present read
  · obtain ⟨present, digits, read, rfl⟩ := (natural?_eq_some_iff (by decide)).mp spelled
    exact .octal present read
  · rename_i lower upper octal
    obtain ⟨present, digits, read, rfl⟩ := (natural?_eq_some_iff (by decide)).mp spelled
    by_cases plain : letters.head? = some '0'
    · obtain ⟨others, rfl⟩ := List.head?_eq_some_iff.mp plain
      cases others with
      | cons first others => exact absurd rfl (octal first others)
      | nil =>
        obtain ⟨digit, others, isDigit, ended, rfl⟩ := List.forall₂_cons_left_iff.mp read
        obtain rfl := List.forall₂_nil_left_iff.mp ended
        have zero : digit? 10 '0' = some 0 := by decide
        obtain rfl := Option.some.inj (zero.symm.trans ((digit?_eq_some_iff (by decide)).mpr isDigit))
        exact .zero
    · exact .decimal present plain read

theorem spelled?_eq_some_iff {letters : List Char} {value : Nat} : spelled? letters = some value ↔ Denotes letters value :=
  ⟨denotes_of_spelled?, spelled?_of_denotes⟩

theorem value?_eq_some_iff {literal : String} {value : Int64} :
    value? literal = some value ↔
      ∃ magnitude, Denotes literal.toList magnitude ∧ magnitude ≤ 2 ^ 63 - 1 ∧ Int64.ofNat magnitude = value := by
  simp only [value?, Option.map_eq_some_iff, Option.filter_eq_some_iff, spelled?_eq_some_iff, decide_eq_true_eq,
    Nat.one_shiftLeft, and_assoc]
  refine exists_congr fun magnitude => and_congr_right fun _ => and_congr_left fun _ => ?_
  omega

theorem exists_digits {base : Nat} (above : 1 < base) (number : Nat) :
    ∃ digits, List.Forall₂ (IsDigit base) (Nat.toDigits base number) digits ∧
      Nat.ofDigits base digits.reverse = number := by
  induction number using Nat.strongRecOn with
  | ind number ih =>
    by_cases small : number < base
    · rw [Nat.toDigits_of_lt_base small]
      exact ⟨[number], .cons ⟨small, Or.inl rfl⟩ .nil, by simp⟩
    · have large : base ≤ number := Nat.le_of_not_lt small
      obtain ⟨digits, read, same⟩ := ih (number / base) (Nat.div_lt_self (by omega) above)
      rw [Nat.toDigits_of_base_le above large]
      refine ⟨digits ++ [number % base], List.rel_append read (.cons ⟨Nat.mod_lt _ (by omega), Or.inl rfl⟩ .nil), ?_⟩
      rw [List.reverse_append, List.reverse_singleton, List.singleton_append, Nat.ofDigits_cons, same,
        Nat.mod_add_div]

theorem head?_toDigits_ne {number : Nat} (positive : 0 < number) : (Nat.toDigits 10 number).head? ≠ some '0' := by
  induction number using Nat.strongRecOn with
  | ind number ih =>
    by_cases small : number < 10
    · have digit : ∀ number < 10, 0 < number → Nat.digitChar number ≠ '0' := by decide
      rw [Nat.toDigits_of_lt_base small]
      simpa using digit number small positive
    · have lead := ih (number / 10) (by omega) (by omega)
      rw [Nat.toDigits_of_base_le (by decide) (by omega)]
      rwa [List.head?_append_of_ne_nil _ Nat.toDigits_ne_nil]

-- Without a leading zero, neither the octal nor the hexadecimal reading applies.
theorem denotes_toDigits (number : Nat) : Denotes (Nat.toDigits 10 number) number := by
  rcases Nat.eq_zero_or_pos number with rfl | positive
  · exact .zero
  · obtain ⟨digits, read, same⟩ := exists_digits (by decide : 1 < 10) number
    have denotes : Denotes _ _ := .decimal Nat.toDigits_ne_nil (head?_toDigits_ne positive) read
    rwa [same] at denotes

theorem value?_toDigits {number : Nat} (small : number ≤ 2 ^ 63 - 1) :
    value? (String.ofList (Nat.toDigits 10 number)) = some (Int64.ofNat number) := by
  refine value?_eq_some_iff.mpr ⟨number, ?_, small, rfl⟩
  rw [String.toList_ofList]
  exact denotes_toDigits number

end SchemaMarshal.Numeral
