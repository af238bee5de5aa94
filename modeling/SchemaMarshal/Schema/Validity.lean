import SchemaMarshal.Schema.Error

/-! A schema file declares nothing twice.

The first offence is reported: among type names, then field by field through the messages, then
value by value through the enumerations. A name is looked at before the number beside it.
-/

set_option autoImplicit false

namespace SchemaMarshal

/-- The first element that already occurs among the earlier ones. -/
def firstRepeat? {α : Type} [DecidableEq α] (earlier : List α) : List α → Option α
  | [] => none
  | head :: tail => if head ∈ earlier then some head else firstRepeat? (head :: earlier) tail

namespace Message

def duplicateAfter? (message : String) (earlier : List Field) : List Field → Option Duplicate
  | [] => none
  | field :: rest =>
      if field.name ∈ earlier.map (·.name) then some (.field message field.name)
      else if field.number ∈ earlier.map (·.number) then some (.fieldNumber message field.number)
      else duplicateAfter? message (field :: earlier) rest

def duplicate? (message : Message) : Option Duplicate :=
  duplicateAfter? message.name [] message.fields

end Message

namespace Enumeration

def duplicateAfter? (enumeration : String) (earlier : List EnumValue) : List EnumValue → Option Duplicate
  | [] => none
  | value :: rest =>
      if value.name ∈ earlier.map (·.name) then some (.enumValue enumeration value.name)
      else if value.ordinal ∈ earlier.map (·.ordinal) then some (.enumOrdinal enumeration value.ordinal)
      else duplicateAfter? enumeration (value :: earlier) rest

def duplicate? (enumeration : Enumeration) : Option Duplicate :=
  duplicateAfter? enumeration.name [] enumeration.values

end Enumeration

namespace SchemaFile

/-- Messages and enumerations share one space of names. -/
def typeNames (file : SchemaFile) : List String :=
  file.messages.map (·.name) ++ file.enumerations.map (·.name)

def duplicate? (file : SchemaFile) : Option Duplicate :=
  match firstRepeat? [] file.typeNames with
  | some name => some (.type name)
  | none =>
      match file.messages.findSome? Message.duplicate? with
      | some duplicate => some duplicate
      | none => file.enumerations.findSome? Enumeration.duplicate?

def validate (file : SchemaFile) : Except ParseError Unit :=
  match file.duplicate? with
  | some duplicate => .error (.duplicate file.identifier duplicate)
  | none => .ok ()

end SchemaFile

end SchemaMarshal
