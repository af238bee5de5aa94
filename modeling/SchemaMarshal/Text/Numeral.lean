/-! Integer literals: decimal, octal after a leading `0`, hexadecimal after `0x` or `0X`. -/

set_option autoImplicit false

namespace SchemaMarshal.Numeral

/-- The value of a digit in a base of at most sixteen, letters of either case standing for ten and
above. -/
def digit? (base : Nat) (c : Char) : Option Nat :=
  let value :=
    if '0' ≤ c && c ≤ '9' then c.toNat - '0'.toNat
    else if 'a' ≤ c && c ≤ 'f' then c.toNat - 'a'.toNat + 10
    else if 'A' ≤ c && c ≤ 'F' then c.toNat - 'A'.toNat + 10
    else base
  if value < base then some value else none

def ofDigits (base : Nat) (digits : List Nat) : Nat :=
  digits.foldl (fun value digit => value * base + digit) 0

/-- At least one digit of the base, and nothing else. -/
def natural? (base : Nat) : List Char → Option Nat
  | [] => none
  | first :: rest => ((first :: rest).mapM (digit? base)).map (ofDigits base)

/-- The number that a literal spells, without a bound. -/
def spelled? : List Char → Option Nat
  | '0' :: 'x' :: digits => natural? 16 digits
  | '0' :: 'X' :: digits => natural? 16 digits
  | '0' :: first :: digits => natural? 8 (first :: digits)
  | digits => natural? 10 digits

/-- The number that a literal spells, if a signed 64-bit number can hold it. -/
def value? (literal : String) : Option Int64 :=
  ((spelled? literal.toList).filter (· < 1 <<< 63)).map Int64.ofNat

end SchemaMarshal.Numeral
