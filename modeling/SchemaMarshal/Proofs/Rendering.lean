import SchemaMarshal.Marshaller.Java
import SchemaMarshal.Proofs.Accessors

/-! What can be read off the source of a marshaller.

A source is made of lines, and without line feeds inside them the text falls into its lines again. What
stands in a line is then known by the fixed text around it. A name ends at the first character that it
cannot have, and any other text ends where the rest of its line is fixed. Imports tell messages from
enumerations, and a method ends at the first line that is not inside it. So two marshallers with the
same source are the same marshaller.
-/

set_option autoImplicit false

namespace SchemaMarshal

theorem append_cons_inj {α : Type} {mark : α} {front other rest tail : List α} (free : mark ∉ front)
    (otherFree : mark ∉ other) (same : front ++ mark :: rest = other ++ mark :: tail) :
    front = other ∧ rest = tail := by
  rcases List.append_eq_append_iff.mp same with ⟨middle, longer, ends⟩ | ⟨middle, longer, ends⟩
  · cases middle with
    | nil => exact ⟨by rw [longer, List.append_nil], (List.cons.inj ends).2⟩
    | cons first middle =>
      obtain ⟨rfl, -⟩ := List.cons.inj ends
      exact absurd (by simp [longer]) otherFree
  · cases middle with
    | nil => exact ⟨by rw [longer, List.append_nil], (List.cons.inj ends).2.symm⟩
    | cons first middle =>
      obtain ⟨rfl, -⟩ := List.cons.inj ends
      exact absurd (by simp [longer]) free

theorem map_inj_on {α β : Type} {f : α → β} {values others : List α}
    (apart : ∀ value ∈ values, ∀ other ∈ others, f value = f other → value = other)
    (same : values.map f = others.map f) : values = others := by
  induction values generalizing others with
  | nil => exact (List.map_eq_nil_iff.mp same.symm).symm
  | cons value values ih =>
    cases others with
    | nil => cases same
    | cons other others =>
      rw [List.map_cons, List.map_cons, List.cons.injEq] at same
      rw [apart value (by simp) other (by simp) same.1,
        ih (fun value member other otherMember =>
          apart value (List.mem_cons_of_mem _ member) other (List.mem_cons_of_mem _ otherMember)) same.2]

namespace Text

/-- A text that stays on one line. -/
def IsLine (text : String) : Prop := '\n' ∉ text.toList

/-- A name ends before the first character that is no part of a word. -/
theorem append_inj_of_isWordPart {name other opening rest tail : String}
    (parts : ∀ c ∈ name.toList, Lexeme.isWordPart c = true)
    (otherParts : ∀ c ∈ other.toList, Lexeme.isWordPart c = true)
    (begins : opening.toList.head?.map Lexeme.isWordPart = some false)
    (same : name ++ (opening ++ rest) = other ++ (opening ++ tail)) : name = other ∧ rest = tail := by
  obtain ⟨mark, first, outside⟩ := Option.map_eq_some_iff.mp begins
  obtain ⟨letters, opens⟩ := List.head?_eq_some_iff.mp first
  have absent : ∀ {text : String}, (∀ c ∈ text.toList, Lexeme.isWordPart c = true) → mark ∉ text.toList := by
    intro text parts member
    cases (parts mark member).symm.trans outside
  rw [← String.toList_inj] at same
  simp only [String.toList_append, opens, List.cons_append] at same
  obtain ⟨sameName, sameLetters⟩ := append_cons_inj (absent parts) (absent otherParts) same
  exact ⟨String.toList_inj.mp sameName, String.toList_inj.mp (List.append_cancel_left sameLetters)⟩

/-- Lines that end with a line feed can be told apart again. -/
theorem join_lines_inj {lines others : List String} (single : ∀ line ∈ lines, IsLine line)
    (otherSingle : ∀ line ∈ others, IsLine line)
    (same : String.join (lines.map fun line => line ++ "\n") = String.join (others.map fun line => line ++ "\n")) :
    lines = others := by
  have letters : ∀ all : List String, (String.join (all.map fun line => line ++ "\n")).toList =
      all.flatMap fun line => line.toList ++ ['\n'] := by
    intro all
    simp [String.toList_join, List.flatMap_map, String.toList_append]
  rw [← String.toList_inj, letters, letters] at same
  clear letters
  induction lines generalizing others with
  | nil =>
    cases others with
    | nil => rfl
    | cons other others => simp at same
  | cons line lines ih =>
    cases others with
    | nil => simp at same
    | cons other others =>
      rw [List.forall_mem_cons] at single otherSingle
      simp only [List.flatMap_cons, List.append_assoc, List.singleton_append] at same
      obtain ⟨sameLine, sameRest⟩ := append_cons_inj single.1 otherSingle.1 same
      rw [String.toList_inj.mp sameLine, ih single.2 otherSingle.2 sameRest]

end Text

theorem isDigit_of_mem_repr {number : Nat} {c : Char} (member : c ∈ number.repr.toList) : c.isDigit = true := by
  rw [Nat.repr, String.toList_ofList] at member
  exact Nat.isDigit_of_mem_toDigits (by decide) (by decide) member

theorem repr_injective : Function.Injective Nat.repr := by
  intro first second same
  have digits : Nat.toDigits 10 first = Nat.toDigits 10 second := by
    simpa [Nat.repr] using congrArg String.toList same
  rw [← @Nat.ofDigitChars_ten_toDigits first, ← @Nat.ofDigitChars_ten_toDigits second, digits]

/-- An integer is written with a sign exactly if it is negative. -/
theorem toString_injective : Function.Injective (toString : Int → String) := by
  have unsigned : ∀ first second : Nat, first.repr ≠ "-" ++ second.repr := by
    intro first second same
    have sign : '-' ∈ first.repr.toList := by simp [same, String.toList_append]
    cases isDigit_of_mem_repr sign
  intro first second same
  rw [Int.toString_eq_repr, Int.toString_eq_repr] at same
  cases first with
  | ofNat first =>
    cases second with
    | ofNat second => rw [repr_injective same]
    | negSucc second => exact absurd same (unsigned _ _)
  | negSucc first =>
    cases second with
    | ofNat second => exact absurd same.symm (unsigned _ _)
    | negSucc second =>
      have magnitude := repr_injective ((String.append_right_inj "-").mp same)
      rw [Nat.succ.inj magnitude]

theorem isLetter_toUpper {c : Char} (letter : Lexeme.isLetter c = true) : Lexeme.isLetter c.toUpper = true := by
  have table : ∀ code < 128, Lexeme.isLetter (Char.ofNat code) = true →
      Lexeme.isLetter (Char.ofNat code).toUpper = true := by decide +kernel
  have entry := table c.toNat (toNat_lt_of_isLetter letter)
  rw [Char.ofNat_toNat] at entry
  exact entry letter

theorem Text.isWordPart_of_mem_capitalize {name : String} (word : Name.isWord name.toList = true) :
    ∀ c ∈ (capitalize name).toList, Lexeme.isWordPart c = true := by
  obtain ⟨initial, rest, letters, letter⟩ := Name.exists_letter_of_isWord word
  rw [toList_capitalize letters letter, List.forall_mem_cons]
  have parts := Name.isWordPart_of_mem word
  rw [letters, List.forall_mem_cons] at parts
  exact ⟨Name.isWordPart_of_isLetter (isLetter_toUpper letter), parts.2⟩

namespace Accessor

theorem Named.isWordPart_setter {accessor : Accessor} (named : accessor.Named) :
    ∀ c ∈ accessor.setter.toList, Lexeme.isWordPart c = true := by
  rw [named.setter, Naming.setter, String.toList_append, List.forall_mem_append]
  exact ⟨List.all_eq_true.mp (by decide), Text.isWordPart_of_mem_capitalize named.word⟩

end Accessor

namespace Carrier

theorem isWordPart_name (carrier : Carrier) : ∀ c ∈ carrier.name.toList, Lexeme.isWordPart c = true := by
  cases carrier with
  | scalar type => cases type <;> exact List.all_eq_true.mp (by decide)
  | collection => exact List.all_eq_true.mp (by decide)
  | object => exact List.all_eq_true.mp (by decide)

theorem name_injective : Function.Injective name := by
  have scalars : ∀ first second : Scalar, first.accessorName = second.accessorName → first = second := by
    intro first second same
    cases first <;> cases second <;> first | rfl | exact absurd same (by decide)
  have apart : ∀ type : Scalar, type.accessorName ≠ "Collection" ∧ type.accessorName ≠ "Object" := by
    intro type
    cases type <;> decide
  intro first second same
  cases first with
  | scalar type =>
    cases second with
    | scalar other => rw [scalars type other same]
    | collection => exact absurd same (apart type).1
    | object => exact absurd same (apart type).2
  | collection =>
    cases second with
    | scalar other => exact absurd same.symm (apart other).1
    | collection => rfl
    | object => exact absurd same (by decide)
  | object =>
    cases second with
    | scalar other => exact absurd same.symm (apart other).2
    | collection => exact absurd same (by decide)
    | object => rfl

end Carrier

namespace Access

def carrier : Access → Carrier
  | .scalar type => .scalar type
  | .collection _ => .collection
  | .object _ => .object

def classOperand : Access → String
  | .scalar _ => ""
  | .collection className => ", " ++ (className ++ ".class")
  | .object className => ", " ++ (className ++ ".class")

def listOperand : Access → String
  | .collection _ => ", " ++ "new ArrayList<>()"
  | _ => ""

theorem listOperand_eq {access other : Access} (same : access.carrier = other.carrier) :
    access.listOperand = other.listOperand := by
  cases access <;> cases other <;> cases same <;> rfl

theorem eq_of_carrier {access other : Access} (sameCarrier : access.carrier = other.carrier)
    (sameClass : access.classOperand = other.classOperand) : access = other := by
  cases access <;> cases other <;> cases sameCarrier
  · rfl
  · simpa only [classOperand, String.append_right_inj, String.append_left_inj, collection.injEq] using sameClass
  · simpa only [classOperand, String.append_right_inj, String.append_left_inj, object.injEq] using sameClass

end Access

namespace Java

theorem statement_assign (accessor : Accessor) :
    statement (.assign accessor.setter accessor.readCall) =
      "        " ++ (instanceName ++ ("." ++ (accessor.setter ++ ("(reader." ++ ("read" ++
        (accessor.access.carrier.name ++ ("(" ++ ("\"" ++ (accessor.fieldName ++ ("\"" ++
          (accessor.access.listOperand ++ (accessor.access.classOperand ++ (")" ++ ");"))))))))))))) := by
  obtain ⟨fieldName, getter, setter, access⟩ := accessor
  unfold statement
  cases access <;>
    simp only [Accessor.readCall, Call.text, Method.name, Operand.text, Access.carrier, Access.listOperand,
      Access.classOperand, List.map_cons, List.map_nil, String.intercalate_cons_cons, String.intercalate_singleton,
      String.append_assoc, String.empty_append]

theorem statement_write (accessor : Accessor) :
    statement (.write accessor.writeCall) =
      "        writer." ++ ("write" ++ (accessor.access.carrier.name ++ ("(" ++ ("\"" ++ (accessor.fieldName ++ ("\"" ++
        (", " ++ (instanceName ++ ("." ++ (accessor.getter ++ ("()" ++ (accessor.access.classOperand ++
          (")" ++ ";"))))))))))))) := by
  obtain ⟨fieldName, getter, setter, access⟩ := accessor
  unfold statement
  cases access <;>
    simp only [Accessor.writeCall, Call.text, Method.name, Operand.text, Access.carrier, Access.classOperand,
      List.map_cons, List.map_nil, String.intercalate_cons_cons, String.intercalate_singleton, String.append_assoc,
      String.empty_append]

theorem assign_inj {accessor other : Accessor} (named : accessor.Named) (otherNamed : other.Named)
    (same : statement (.assign accessor.setter accessor.readCall) = statement (.assign other.setter other.readCall)) :
    accessor = other := by
  rw [statement_assign, statement_assign] at same
  simp only [String.append_right_inj] at same
  obtain ⟨sameSetter, same⟩ :=
    Text.append_inj_of_isWordPart named.isWordPart_setter otherNamed.isWordPart_setter (by decide) same
  rw [String.append_right_inj] at same
  obtain ⟨sameMethod, same⟩ :=
    Text.append_inj_of_isWordPart (Carrier.isWordPart_name _) (Carrier.isWordPart_name _) (by decide) same
  rw [String.append_right_inj] at same
  obtain ⟨sameName, same⟩ := Text.append_inj_of_isWordPart (Name.isWordPart_of_mem named.word)
    (Name.isWordPart_of_mem otherNamed.word) (by decide) same
  have sameCarrier := Carrier.name_injective sameMethod
  rw [Access.listOperand_eq sameCarrier, String.append_right_inj, String.append_left_inj] at same
  have sameAccess := Access.eq_of_carrier sameCarrier same
  have sameGetter : accessor.getter = other.getter := by rw [named.getter, otherNamed.getter, sameAccess, sameName]
  cases accessor
  cases other
  rw [Accessor.mk.injEq]
  exact ⟨sameName, sameGetter, sameSetter, sameAccess⟩

def caseLines (targetClass : String) (value : EnumValue) : List String :=
  decodeBranch targetClass (.case value.ordinal value.name)

theorem caseLines_append_inj {targetClass : String} {value other : EnumValue} {rest tail : List String}
    (same : caseLines targetClass value ++ rest = caseLines targetClass other ++ tail) :
    value = other ∧ rest = tail := by
  simp only [caseLines, decodeBranch, List.cons_append, List.nil_append, List.cons.injEq, String.append_left_inj,
    String.append_right_inj] at same
  obtain ⟨sameOrdinal, sameName, sameRest⟩ := same
  cases value
  cases other
  rw [EnumValue.mk.injEq]
  exact ⟨⟨sameName, Int32.toInt_inj.mp (toString_injective sameOrdinal)⟩, sameRest⟩

theorem flatMap_caseLines_inj {targetClass : String} {values others : List EnumValue}
    (same : values.flatMap (caseLines targetClass) = others.flatMap (caseLines targetClass)) : values = others := by
  induction values generalizing others with
  | nil =>
    cases others with
    | nil => rfl
    | cons other others => cases same
  | cons value values ih =>
    cases others with
    | nil => cases same
    | cons other others =>
      obtain ⟨rfl, later⟩ := caseLines_append_inj same
      rw [ih later]

theorem decodeBody_eq (marshaller : EnumMarshaller) :
    decodeBody marshaller =
      "        switch (ordinal) \x7b" :: (marshaller.values.flatMap (caseLines marshaller.targetClass) ++
        (decodeBranch marshaller.targetClass .fail ++ ["        \x7d"])) := by
  simp only [decodeBody, EnumMarshaller.decodeBranches, List.flatMap_append, List.flatMap_map, List.flatMap_singleton,
    List.cons_append, List.append_assoc]
  rfl

/-- A package line is never the empty line before the imports, and no import is the empty line after them. -/
theorem header_append_inj {package other : String} {imports otherImports rest tail : List String}
    (imported : imports ≠ []) (otherImported : otherImports ≠ [])
    (same : header package imports ++ rest = header other otherImports ++ tail) :
    package = other ∧ imports = otherImports ∧ rest = tail := by
  have present : ∀ text : String, "package " ++ text ++ ";" ≠ "" := by
    intro text same
    simpa [String.toList_append] using congrArg String.toList same
  have filled : ∀ names : List String, "" ∉ names.map fun imported => "import " ++ imported ++ ";" := by
    intro names listed
    obtain ⟨name, -, same⟩ := List.mem_map.mp listed
    simpa [String.toList_append] using congrArg String.toList same
  simp only [header, List.isEmpty_eq_false_iff.mpr imported, List.isEmpty_eq_false_iff.mpr otherImported,
    Bool.false_eq_true, if_false, List.cons_append, List.append_assoc, List.nil_append, List.cons.injEq, true_and] at same
  obtain ⟨samePackage, same⟩ : package = other ∧
      (imports.map fun imported => "import " ++ imported ++ ";") ++ "" :: rest =
        (otherImports.map fun imported => "import " ++ imported ++ ";") ++ "" :: tail := by
    by_cases empty : package = "" <;> by_cases otherEmpty : other = ""
    · simpa [empty, otherEmpty] using same
    · simp only [empty, otherEmpty, if_true, if_false, List.nil_append, List.cons_append, List.cons.injEq] at same
      exact absurd same.1.symm (present other)
    · simp only [empty, otherEmpty, if_true, if_false, List.nil_append, List.cons_append, List.cons.injEq] at same
      exact absurd same.1 (present package)
    · simpa only [empty, otherEmpty, if_false, List.cons_append, List.nil_append, List.cons.injEq, true_and,
        String.append_left_inj, String.append_right_inj] using same
  obtain ⟨sameImports, sameRest⟩ := append_cons_inj (filled imports) (filled otherImports) same
  refine ⟨samePackage, map_inj_on (fun name _ otherName _ same => ?_) sameImports, sameRest⟩
  simpa only [String.append_left_inj, String.append_right_inj] using same

/-- A line inside a method. -/
def Inner (line : String) : Prop := line.toList.take 8 = List.replicate 8 ' '

instance : DecidablePred Inner :=
  fun line => inferInstanceAs (Decidable (line.toList.take 8 = List.replicate 8 ' '))

theorem inner_append {start : String} (inner : Inner start) (text : String) : Inner (start ++ text) := by
  have long : 8 ≤ start.toList.length := by
    have size := congrArg List.length inner
    rw [List.length_take, List.length_replicate] at size
    omega
  rw [Inner, String.toList_append, List.take_append_of_le_length long]
  exact inner

theorem inner_statement (line : Statement) : Inner (statement line) := by
  unfold statement
  cases line <;> simp only [String.append_assoc] <;> exact inner_append (by decide) _

theorem inner_decodeBody (marshaller : EnumMarshaller) : ∀ line ∈ decodeBody marshaller, Inner line := by
  have branches : ∀ branch, ∀ line ∈ decodeBranch marshaller.targetClass branch, Inner line := by
    intro branch
    cases branch <;>
      simp only [decodeBranch, String.append_assoc, List.forall_mem_cons, List.not_mem_nil, false_implies, implies_true,
        and_true]
    case case => exact ⟨inner_append (by decide) _, inner_append (by decide) _⟩
    case fail => exact ⟨by decide, inner_append (by decide) _⟩
  rw [decodeBody, List.forall_mem_append, List.forall_mem_cons]
  refine ⟨⟨by decide, fun line listed => ?_⟩, by decide⟩
  obtain ⟨branch, -, member⟩ := List.mem_flatMap.mp listed
  exact branches branch line member

theorem not_mem_of_inner {body : List String} (inner : ∀ line ∈ body, Inner line) : "    \x7d" ∉ body := by
  intro listed
  exact absurd (inner _ listed) (by decide)

/-- A method ends at the first line that is not inside it. -/
theorem method_append_inj {signature other : String} {body otherBody rest tail : List String}
    (inner : ∀ line ∈ body, Inner line) (otherInner : ∀ line ∈ otherBody, Inner line)
    (same : method signature body ++ rest = method other otherBody ++ tail) : body = otherBody ∧ rest = tail := by
  simp only [method, List.cons_append, List.append_assoc, List.nil_append, List.cons.injEq, true_and] at same
  exact append_cons_inj (not_mem_of_inner inner) (not_mem_of_inner otherInner) same.2

theorem getTypeName_append_inj {typeName other : String} {rest tail : List String}
    (same : getTypeName typeName ++ rest = getTypeName other ++ tail) : typeName = other ∧ rest = tail := by
  have inner : ∀ text : String, ∀ line ∈ ["        return \"" ++ text ++ "\";"], Inner line := by
    intro text line listed
    rw [List.mem_singleton.mp listed, String.append_assoc]
    exact inner_append (by decide) _
  obtain ⟨sameBody, sameRest⟩ := method_append_inj (inner typeName) (inner other) same
  rw [List.singleton_inj, String.append_left_inj, String.append_right_inj] at sameBody
  exact ⟨sameBody, sameRest⟩

theorem unit_inj {contract package otherPackage name otherName target otherTarget : String}
    {imports otherImports : List String} {methods otherMethods : List (List String)}
    (imported : imports ≠ []) (otherImported : otherImports ≠ [])
    (parts : ∀ c ∈ name.toList, Lexeme.isWordPart c = true)
    (otherParts : ∀ c ∈ otherName.toList, Lexeme.isWordPart c = true)
    (same : unit package imports name contract target methods =
      unit otherPackage otherImports otherName contract otherTarget otherMethods) :
    package = otherPackage ∧ name = otherName ∧ target = otherTarget ∧
      methods.flatMap (fun lines => "" :: lines) = otherMethods.flatMap fun lines => "" :: lines := by
  simp only [unit, List.append_assoc, List.cons_append] at same
  obtain ⟨samePackage, -, rest⟩ := header_append_inj imported otherImported same
  rw [List.cons.injEq, List.append_left_inj] at rest
  obtain ⟨opening, sameMethods⟩ := rest
  simp only [String.append_assoc, String.append_right_inj] at opening
  obtain ⟨sameName, sameTarget⟩ := Text.append_inj_of_isWordPart parts otherParts (by decide) opening
  rw [String.append_right_inj, String.append_right_inj, String.append_left_inj] at sameTarget
  exact ⟨samePackage, sameName, sameTarget, sameMethods⟩

theorem messageImports_ne_nil (conventions : Conventions) (marshaller : MessageMarshaller) :
    messageImports conventions marshaller ≠ [] := by
  simp [messageImports]

theorem messageUnit_inj {conventions : Conventions} {first second : MessageMarshaller}
    (parts : ∀ c ∈ first.name.toList, Lexeme.isWordPart c = true)
    (otherParts : ∀ c ∈ second.name.toList, Lexeme.isWordPart c = true)
    (named : ∀ field ∈ first.fields, field.Named) (otherNamed : ∀ field ∈ second.fields, field.Named)
    (same : messageUnit conventions first = messageUnit conventions second) : first = second := by
  obtain ⟨samePackage, sameName, sameTarget, methods⟩ :=
    unit_inj (messageImports_ne_nil conventions first) (messageImports_ne_nil conventions second) parts otherParts same
  simp only [MessageMarshaller.members, List.map_cons, List.map_nil, messageMember, List.flatMap_cons, List.cons_append, List.cons.injEq, true_and, sameTarget, List.append_right_inj] at methods
  obtain ⟨sameType, rest⟩ := getTypeName_append_inj methods
  have inner : ∀ marshaller : MessageMarshaller, ∀ line ∈ marshaller.readStatements.map statement, Inner line := by
    intro marshaller line listed
    obtain ⟨origin, -, rfl⟩ := List.mem_map.mp listed
    exact inner_statement origin
  obtain ⟨sameBody, -⟩ := method_append_inj (inner first) (inner second) (List.cons.inj rest).2
  simp only [MessageMarshaller.readStatements, List.map_cons, List.map_append, List.map_map, List.cons_append,
    List.cons.injEq, List.append_left_inj] at sameBody
  have sameFields := map_inj_on
    (fun field member other otherMember => assign_inj (named field member) (otherNamed other otherMember)) sameBody.2
  cases first
  cases second
  rw [MessageMarshaller.mk.injEq]
  exact ⟨sameName, samePackage, sameTarget, sameType, sameFields⟩

theorem enumUnit_inj {conventions : Conventions} {first second : EnumMarshaller}
    (parts : ∀ c ∈ first.name.toList, Lexeme.isWordPart c = true)
    (otherParts : ∀ c ∈ second.name.toList, Lexeme.isWordPart c = true)
    (same : enumUnit conventions first = enumUnit conventions second) : first = second := by
  obtain ⟨samePackage, sameName, sameTarget, methods⟩ :=
    unit_inj (List.cons_ne_nil _ _) (List.cons_ne_nil _ _) parts otherParts same
  simp only [EnumMarshaller.members, List.map_cons, List.map_nil, enumMember, List.flatMap_cons, List.cons_append, List.cons.injEq, true_and] at methods
  obtain ⟨sameBody, rest⟩ := method_append_inj (inner_decodeBody first) (inner_decodeBody second) methods
  rw [decodeBody_eq, decodeBody_eq, sameTarget, List.cons.injEq, List.append_left_inj] at sameBody
  have sameValues := flatMap_caseLines_inj sameBody.2
  -- The encoder says nothing that the decoder does not.
  have sameEncoder : encodeBody first = encodeBody second := by
    rw [encodeBody, encodeBody, EnumMarshaller.encodeBranches, EnumMarshaller.encodeBranches, sameValues]
  simp only [sameTarget, sameEncoder, List.cons.injEq, true_and, List.append_right_inj] at rest
  obtain ⟨sameType, -⟩ := getTypeName_append_inj rest
  cases first
  cases second
  rw [EnumMarshaller.mk.injEq]
  exact ⟨sameName, samePackage, sameTarget, sameType, sameValues⟩

/-- A message imports more than an enumeration does. -/
theorem messageUnit_ne_enumUnit (conventions : Conventions) (message : MessageMarshaller)
    (enumeration : EnumMarshaller) : messageUnit conventions message ≠ enumUnit conventions enumeration := by
  intro same
  simp only [messageUnit, enumUnit, unit, List.append_assoc] at same
  obtain ⟨-, sameImports, -⟩ :=
    header_append_inj (messageImports_ne_nil conventions message) (List.cons_ne_nil _ _) same
  simpa [messageImports] using congrArg List.length sameImports

end Java

end SchemaMarshal
