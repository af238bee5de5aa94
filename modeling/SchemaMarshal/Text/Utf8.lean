/-! Reading UTF-8 and saying where it breaks.

A fault counts the bytes of the text before it. It also counts the longest start of an encoded
character at that point, or says that the bytes end inside one.
-/

set_option autoImplicit false

namespace SchemaMarshal.Utf8

structure Fault where
  validBytes : Nat
  /-- Absent where the bytes end too early. -/
  invalidBytes : Option Nat
  deriving DecidableEq, Repr

def Fault.message (fault : Fault) : String :=
  match fault.invalidBytes with
  | some count =>
      "invalid utf-8 sequence of " ++ toString count ++ " bytes from index " ++ toString fault.validBytes
  | none => "incomplete utf-8 byte sequence from index " ++ toString fault.validBytes

def between (low high : Nat) (byte : UInt8) : Bool := low ≤ byte.toNat && byte.toNat ≤ high

def isContinuation (byte : UInt8) : Bool := between 0x80 0xBF byte

/-- The second bytes that the first byte of a longer character allows: no overlong form, no
surrogate, nothing above the last code point. -/
def allowsSecond (first second : UInt8) : Bool :=
  if first = 0xE0 then between 0xA0 0xBF second
  else if first = 0xED then between 0x80 0x9F second
  else if first = 0xF0 then between 0x90 0xBF second
  else if first = 0xF4 then between 0x80 0x8F second
  else isContinuation second

def payload (bits : Nat) (byte : UInt8) : Nat := byte.toNat % (1 <<< bits)

/-- A character and the number of bytes it takes, or the length of the invalid start. -/
inductive Head where
  | character (c : Char) (bytes : Nat)
  | invalid (bytes : Nat)
  | incomplete
  deriving DecidableEq, Repr

def headTwo (first : UInt8) : List UInt8 → Head
  | [] => .incomplete
  | second :: _ =>
      if !isContinuation second then .invalid 1
      else .character (Char.ofNat (payload 5 first <<< 6 + payload 6 second)) 2

def headThree (first : UInt8) : List UInt8 → Head
  | [] => .incomplete
  | second :: rest =>
      if !allowsSecond first second then .invalid 1
      else match rest with
        | [] => .incomplete
        | third :: _ =>
            if !isContinuation third then .invalid 2
            else .character
              (Char.ofNat (payload 4 first <<< 12 + payload 6 second <<< 6 + payload 6 third)) 3

def headFour (first : UInt8) : List UInt8 → Head
  | [] => .incomplete
  | second :: rest =>
      if !allowsSecond first second then .invalid 1
      else match rest with
        | [] => .incomplete
        | third :: rest =>
            if !isContinuation third then .invalid 2
            else match rest with
              | [] => .incomplete
              | fourth :: _ =>
                  if !isContinuation fourth then .invalid 3
                  else .character
                    (Char.ofNat (payload 3 first <<< 18 + payload 6 second <<< 12 +
                      payload 6 third <<< 6 + payload 6 fourth)) 4

def head (first : UInt8) (rest : List UInt8) : Head :=
  if between 0x00 0x7F first then .character (Char.ofNat first.toNat) 1
  else if between 0xC2 0xDF first then headTwo first rest
  else if between 0xE0 0xEF first then headThree first rest
  else if between 0xF0 0xF4 first then headFour first rest
  else .invalid 1

def decodeFrom (offset : Nat) (bytes : List UInt8) : Except Fault (List Char) :=
  match bytes with
  | [] => .ok []
  | first :: rest =>
      match head first rest with
      | .incomplete => .error ⟨offset, none⟩
      | .invalid count => .error ⟨offset, some count⟩
      | .character c count =>
          match decodeFrom (offset + count) (rest.drop (count - 1)) with
          | .ok cs => .ok (c :: cs)
          | .error fault => .error fault
termination_by bytes.length
decreasing_by simp only [List.length_drop, List.length_cons]; omega

def decode (bytes : ByteArray) : Except Fault String :=
  (decodeFrom 0 bytes.toList).map String.ofList

end SchemaMarshal.Utf8
