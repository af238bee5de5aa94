import SchemaMarshal.Proofs.Bodies

/-! Fields without a label.

An item of a message is told by its first token, and only a word makes it a field. A field without a label
begins with its type, so the type must begin with a word too: a leading point is refused there, though it is
read after every label.
-/

set_option autoImplicit false

namespace SchemaMarshal

namespace Name

/-- The reference made of these words, after a leading point if it is absolute. -/
def reference (absolute : Bool) (first : String) (others : List String) : String :=
  Text.join '.' (if absolute then "" :: first :: others else first :: others)

section

variable {first : String} {others : List String}

theorem toList_reference (absolute : Bool) (first : String) (others : List String) :
    (reference absolute first others).toList =
      (if absolute then ['.'] else []) ++ (first.toList ++ continuation (others.map String.toList)) := by
  rw [reference, Text.join, String.toList_ofList, ← joinChars_eq_append_continuation]
  cases absolute <;> rfl

variable (words : ∀ word ∈ first :: others, isWord word.toList = true)

include words

theorem words_toList : ∀ word ∈ first.toList :: others.map String.toList, isWord word = true := by
  rw [← List.map_cons (f := String.toList), List.forall_mem_map]
  exact words

theorem isReference_reference (absolute : Bool) : isReference (reference absolute first others).toList = true := by
  have path : isPath (first.toList ++ continuation (others.map String.toList)) = true :=
    isPath_iff.mpr ⟨_, _, words_toList words, rfl⟩
  rw [toList_reference, isReference_iff]
  cases absolute with
  | false => exact Or.inl path
  | true => exact Or.inr ⟨_, path, rfl⟩

theorem head?_reference_ne : (reference false first others).toList.head? ≠ some '.' := by
  rw [toList_reference]
  exact head?_ne_point_of_isWord (words first (by simp)) _

theorem segments_reference : Text.segments '.' (reference false first others) = first :: others := by
  rw [Text.segments, toList_reference]
  simp only [Bool.false_eq_true, if_false, List.nil_append]
  rw [splitAt_path (words_toList words)]
  simp

end

end Name

namespace Field

def kinds (field : Field) : List Token.Kind := field.parts.flatMap Part.kinds

def unlabelled (field : Field) : Field := { field with label := .implicit }

theorem wellFormed_of_reference {field : Field} {absolute : Bool} {first : String} {others : List String}
    (type : field.typeName = Name.reference absolute first others)
    (words : ∀ word ∈ first :: others, Name.isWord word.toList = true) (notGroup : field.typeName ≠ "group")
    (named : Name.isWord field.name.toList = true) (positive : 1 ≤ field.number.toNat)
    (bare : field.label = .implicit → absolute = false ∧ first ∉ takenWords) : field.WellFormed where
  name := named
  type := by
    rw [type]
    exact Name.isReference_reference words absolute
  notGroup := notGroup
  unlabelled := by
    intro implicit
    obtain ⟨rfl, free⟩ := bare implicit
    rw [type, Name.segments_reference words]
    refine ⟨Name.head?_reference_ne words, ?_⟩
    intro word same
    cases same
    exact free
  positive := positive

theorem head?_kinds_of_absolute {field : Field} {first : String} {others : List String}
    (type : field.typeName = Name.reference true first others) :
    field.unlabelled.kinds.head? = some (.symbol '.') := by
  have letters : field.unlabelled.typeName.toList = '.' :: (first.toList ++ Name.continuation (others.map String.toList)) := by
    rw [unlabelled, type, Name.toList_reference]
    rfl
  have parts : field.unlabelled.parts = .name field.unlabelled.typeName :: field.unlabelled.parts.tail := rfl
  rw [kinds, parts, List.flatMap_cons, Part.kinds, letters, Name.kinds_symbol (by decide)]
  rfl

end Field

namespace Parser

theorem messageItem_point {point : Token} (isPoint : point.kind = .symbol '.') (tokens : List Token) :
    messageItem (point :: tokens) = .error (.malformed point.position (.unexpected .fieldDeclaration (.symbol '.'))) := by
  have peeked : peek (.symbol '\x7d') (point :: tokens) = .ok (point, point :: tokens) := rfl
  have opens : MessageItem.Opening.ofKind point.kind = .other := by
    rw [isPoint]
    rfl
  rw [messageItem, bind_of_ok peeked, opens, ← isPoint]
  rfl

theorem Frame.ofTokens_plug_field (frame : MessageFrame) (identifier : Identifier) {field : Field}
    (wellFormed : field.WellFormed) {own : List Token} (written : own.map (·.kind) = field.kinds) :
    SchemaFile.ofTokens identifier (frame.plug own) =
      .ok (.ofStatements identifier (frame.fill .message (.field field))) := by
  have itemWellFormed : (MessageItem.field field).WellFormed := wellFormed
  have reads : messageItem.Reads (own.map (·.kind) ++ frame.after.map (·.kind)) (.field field)
      (frame.after.map (·.kind)) := by
    rw [written]
    exact reads_messageItem itemWellFormed _
  exact frame.ofTokens_plug declares_message (fits_of_kinds written (head?_messageItem itemWellFormed)) identifier
    (firm_messageItem.local.read_of_reads reads)

end Parser

namespace SchemaFile

/-- A label may be left out of a field unless its type begins with a point; nothing but the label changes then.
If the type does, the point is refused where it stands. -/
theorem ofTokens_unlabelled (identifier : Identifier) (frame : Parser.MessageFrame) {field : Field} {absolute : Bool}
    {first : String} {others : List String} (type : field.typeName = Name.reference absolute first others)
    (words : ∀ word ∈ first :: others, Name.isWord word.toList = true) (free : first ∉ Field.takenWords)
    (notGroup : field.typeName ≠ "group") (named : Name.isWord field.name.toList = true)
    (positive : 1 ≤ field.number.toNat) (explicit : field.label ≠ .implicit)
    {labelled following : List Token} {opening : Token} (withLabel : labelled.map (·.kind) = field.kinds)
    (without : (opening :: following).map (·.kind) = field.unlabelled.kinds) :
    ofTokens identifier (frame.plug labelled) =
        .ok (ofStatements identifier (frame.fill .message (.field field))) ∧
      ofTokens identifier (frame.plug (opening :: following)) =
        if absolute then
          .error (.malformed identifier opening.position (.unexpected .fieldDeclaration (.symbol '.')))
        else .ok (ofStatements identifier (frame.fill .message (.field field.unlabelled))) := by
  constructor
  · refine frame.ofTokens_plug_field identifier ?_ withLabel
    exact Field.wellFormed_of_reference type words notGroup named positive fun implicit => absurd implicit explicit
  cases absolute with
  | false =>
    have bare : field.unlabelled.WellFormed :=
      Field.wellFormed_of_reference type words notGroup named positive fun _ => ⟨rfl, free⟩
    exact frame.ofTokens_plug_field identifier bare without
  | true =>
    have isPoint : opening.kind = .symbol '.' := by
      have opens := Field.head?_kinds_of_absolute type
      rw [← without] at opens
      exact Option.some.inj opens
    have fits : Parser.Frame.Fits (opening :: following) := ⟨opening, following, rfl, by rw [isPoint]; decide⟩
    exact frame.ofTokens_plug_error Parser.declares_message fits identifier (Parser.messageItem_point isPoint _)

/-- The second field of a message, in a file that has a package and an enumeration. -/
def secondField : Parser.MessageFrame where
  above := [.identifier "package", .identifier "q", .symbol ';'].map (⟨·, .start⟩)
  earlier := [.package "q"]
  opening := [.identifier "message", .identifier "M", .symbol '\x7b'].map (⟨·, .start⟩)
  name := "M"
  before := [.identifier "repeated", .identifier "int32", .identifier "w", .symbol '=', .integer "1",
    .symbol ';'].map (⟨·, .start⟩)
  firsts := [.field ⟨"w", "int32", 1, .repeated⟩]
  after := [.symbol ';', .symbol '\x7d', .identifier "enum", .identifier "E", .symbol '\x7b',
    .symbol '\x7d'].map (⟨·, .start⟩)
  lasts := [.empty]
  below := [.identifier "enum", .identifier "E", .symbol '\x7b', .symbol '\x7d'].map (⟨·, .start⟩)
  later := [.enumeration "E" []]
  readAbove := by decide +kernel
  opens := rfl
  readBefore := by decide +kernel
  readAfter := by decide +kernel
  readBelow := by decide +kernel

theorem ofTokens_unlabelled_second :
    ofTokens (.named "a") (secondField.plug ([.identifier "required", .identifier "p", .symbol '.', .identifier "T",
        .identifier "x", .symbol '=', .integer "4294967295", .symbol ';'].map (⟨·, .start⟩))) =
      .ok ⟨.named "a", none, "q", [], [], [⟨"M", "q.M", [⟨"w", "int32", 1, .repeated⟩,
        ⟨"x", "p.T", 4294967295, .required⟩], []⟩], [⟨"E", "q.E", [], []⟩]⟩ ∧
    ofTokens (.named "a") (secondField.plug ([.identifier "p", .symbol '.', .identifier "T",
        .identifier "x", .symbol '=', .integer "4294967295", .symbol ';'].map (⟨·, .start⟩))) =
      .ok ⟨.named "a", none, "q", [], [], [⟨"M", "q.M", [⟨"w", "int32", 1, .repeated⟩,
        ⟨"x", "p.T", 4294967295, .implicit⟩], []⟩], [⟨"E", "q.E", [], []⟩]⟩ := by
  have applied := @ofTokens_unlabelled (.named "a") secondField ⟨"x", "p.T", 4294967295, .required⟩ false "p" ["T"]
    (by decide +kernel) (by decide +kernel) (by decide) (by decide) (by decide) (by decide) (by decide)
    ([.identifier "required", .identifier "p", .symbol '.', .identifier "T", .identifier "x", .symbol '=',
      .integer "4294967295", .symbol ';'].map (⟨·, .start⟩))
    ([.symbol '.', .identifier "T", .identifier "x", .symbol '=', .integer "4294967295", .symbol ';'].map (⟨·, .start⟩))
    ⟨.identifier "p", .start⟩ (by decide +kernel) (by decide +kernel)
  rw [applied.1]
  refine ⟨by decide +kernel, applied.2.trans ?_⟩
  decide +kernel

/-- The point of an absolute type is read after a label, and refused without one. -/
theorem absolute_unlabelled_refused :
    parse (.named "a") "message M \x7b .p.T x = 1; \x7d" =
        .error (.malformed (.named "a") ⟨1, 13⟩ (.unexpected .fieldDeclaration (.symbol '.'))) ∧
      parse (.named "a") "message M \x7b optional .p.T x = 1; \x7d" =
        .ok ⟨.named "a", none, "", [], [], [⟨"M", "M", [⟨"x", ".p.T", 1, .optional⟩], []⟩], []⟩ := by
  decide +kernel

end SchemaFile

end SchemaMarshal
