import SchemaMarshal.NameMap
import SchemaMarshal.Schema.Basic

/-! Values that marshallers carry, and records of named properties.

Floating-point numbers are kept as their bits, so that nothing is lost in passing. `Value.same`
compares as the numbers do: not-a-number differs from itself and the two zeros are equal.
-/

set_option autoImplicit false

namespace SchemaMarshal

structure Binary64 where
  bits : UInt64
  deriving DecidableEq, Repr

structure Binary32 where
  bits : UInt32
  deriving DecidableEq, Repr

def Binary64.magnitude (number : Binary64) : Nat := number.bits.toNat % (1 <<< 63)

def Binary32.magnitude (number : Binary32) : Nat := number.bits.toNat % (1 <<< 31)

def Binary64.isNaN (number : Binary64) : Bool := 0x7FF0000000000000 < number.magnitude

def Binary32.isNaN (number : Binary32) : Bool := 0x7F800000 < number.magnitude

def Binary64.same (first second : Binary64) : Bool :=
  !first.isNaN && !second.isNaN && (first = second || (first.magnitude = 0 && second.magnitude = 0))

def Binary32.same (first second : Binary32) : Bool :=
  !first.isNaN && !second.isNaN && (first = second || (first.magnitude = 0 && second.magnitude = 0))

structure RecordOf (V : Type) where
  className : String
  properties : NameMap V

inductive Value where
  | null
  | string (text : String)
  | int (number : Int32)
  | long (number : Int64)
  | double (number : Binary64)
  | float (number : Binary32)
  | boolean (truth : Bool)
  /-- An enumeration constant, by the name of its value. -/
  | enum (name : String)
  | object (record : RecordOf Value)
  | collection (elements : List Value)

abbrev Record := RecordOf Value

instance : Inhabited Value := ⟨.null⟩

instance : Inhabited Record := ⟨⟨"", .empty⟩⟩

namespace Value

inductive Kind where
  | null
  | string
  | int
  | long
  | double
  | float
  | boolean
  | enum
  | object
  | collection
  deriving DecidableEq, Repr

def Kind.name : Kind → String
  | .null => "null"
  | .string => "string"
  | .int => "int"
  | .long => "long"
  | .double => "double"
  | .float => "float"
  | .boolean => "boolean"
  | .enum => "enum"
  | .object => "object"
  | .collection => "collection"

def kind : Value → Kind
  | .null => .null
  | .string _ => .string
  | .int _ => .int
  | .long _ => .long
  | .double _ => .double
  | .float _ => .float
  | .boolean _ => .boolean
  | .enum _ => .enum
  | .object _ => .object
  | .collection _ => .collection

def isNull (value : Value) : Bool := value.kind = .null

mutual

def same : Value → Value → Bool
  | .null, .null => true
  | .string first, .string second => first = second
  | .int first, .int second => first = second
  | .long first, .long second => first = second
  | .double first, .double second => first.same second
  | .float first, .float second => first.same second
  | .boolean first, .boolean second => first = second
  | .enum first, .enum second => first = second
  | .object ⟨firstClass, ⟨first⟩⟩, .object ⟨secondClass, ⟨second⟩⟩ =>
      firstClass = secondClass && sameProperties first second
  | .collection first, .collection second => sameElements first second
  | _, _ => false

def sameElements : List Value → List Value → Bool
  | [], [] => true
  | first :: firsts, second :: seconds => same first second && sameElements firsts seconds
  | _, _ => false

def sameProperties : List (String × Value) → List (String × Value) → Bool
  | [], [] => true
  | (firstName, first) :: firsts, (secondName, second) :: seconds =>
      firstName = secondName && same first second && sameProperties firsts seconds
  | _, _ => false

end

end Value

namespace RecordOf

def empty (className : String) : Record := ⟨className, .empty⟩

def set (record : Record) (name : String) (value : Value) : Record :=
  { record with properties := record.properties.insert name value }

/-- An unset property reads as null. -/
def get (record : Record) (name : String) : Value := (record.properties.get? name).getD .null

def same (first second : Record) : Bool := (Value.object first).same (.object second)

theorem get_set (record : Record) (name other : String) (value : Value) :
    (record.set name value).get other = if name = other then value else record.get other := by
  simp only [get, set, NameMap.get?_insert]
  split <;> rfl

end RecordOf

end SchemaMarshal
