import SchemaMarshal.Value

/-! Documents: named values in the order they were written.

Reading looks at the first entry of a name and takes a missing one for null. It fails on a value of
another kind than asked for.
-/

set_option autoImplicit false

namespace SchemaMarshal

/-- What a reader or writer asks of a value. -/
inductive Wanted where
  | scalar (type : Scalar)
  | collection
  | collectionOf (elementClass : String)
  | object (className : String)
  deriving DecidableEq, Repr

def Wanted.text : Wanted → String
  | .scalar .string => "string"
  | .scalar .int32 => "int"
  | .scalar .int64 => "long"
  | .scalar .double => "double"
  | .scalar .float => "float"
  | .scalar .bool => "boolean"
  | .collection => "collection"
  | .collectionOf elementClass => "collection of " ++ elementClass
  | .object className => className

/-- What an enumeration was given to encode or decode. -/
inductive EnumInput where
  | absent
  | name (text : String)
  | ordinal (number : Int32)
  deriving DecidableEq, Repr

def EnumInput.text : EnumInput → String
  | .absent => "null"
  | .name text => text
  | .ordinal number => toString number.toInt

inductive MarshalError where
  | invalidEnumValue (enumeration : String) (input : EnumInput)
  | typeMismatch (field : String) (wanted : Wanted) (actual : Value.Kind)
  deriving DecidableEq, Repr

def MarshalError.message : MarshalError → String
  | .invalidEnumValue enumeration input =>
      "invalid value '" ++ input.text ++ "' provided to enum '" ++ enumeration ++ "'"
  | .typeMismatch field wanted actual =>
      "field '" ++ field ++ "' holds " ++ actual.name ++ ", expected " ++ wanted.text

structure Document where
  entries : List (String × Value)

namespace Document

def empty : Document := ⟨[]⟩

def ofRecord (record : Record) : Document := ⟨record.properties.entries⟩

def append (document : Document) (name : String) (value : Value) : Document :=
  ⟨document.entries ++ [(name, value)]⟩

def names (document : Document) : List String := document.entries.map (·.1)

def size (document : Document) : Nat := document.entries.length

def get? (document : Document) (name : String) : Option Value := NameMap.find name document.entries

def value (document : Document) (name : String) : Value := (document.get? name).getD .null

def readScalar (document : Document) (scalar : Scalar) (name : String) : Except MarshalError Value :=
  match scalar, document.value name with
  | _, .null => .ok .null
  | .string, .string text => .ok (.string text)
  | .int32, .int number => .ok (.int number)
  | .int64, .long number => .ok (.long number)
  | .double, .double number => .ok (.double number)
  | .float, .float number => .ok (.float number)
  | .bool, .boolean truth => .ok (.boolean truth)
  | scalar, other => .error (.typeMismatch name (.scalar scalar) other.kind)

def readObject (document : Document) (name className : String) : Except MarshalError Value :=
  match document.value name with
  | .null => .ok .null
  | .object record => .ok (.object record)
  | .enum constant => .ok (.enum constant)
  | other => .error (.typeMismatch name (.object className) other.kind)

def readCollection (document : Document) (name elementClass : String) :
    Except MarshalError (List Value) :=
  match document.value name with
  | .null => .ok []
  | .collection elements => .ok elements
  | other => .error (.typeMismatch name (.collectionOf elementClass) other.kind)

end Document

end SchemaMarshal
