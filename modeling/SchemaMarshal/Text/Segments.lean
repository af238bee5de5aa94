/-! Splitting text at a separator and putting it together again. -/

set_option autoImplicit false

namespace SchemaMarshal.Text

/-- The stretches between separators, empty ones included; there is always at least one. -/
def splitAt (separator : Char) : List Char → List (List Char)
  | [] => [[]]
  | c :: rest =>
      if c = separator then [] :: splitAt separator rest
      else
        match splitAt separator rest with
        | [] => [[c]]
        | first :: others => (c :: first) :: others

def segments (separator : Char) (text : String) : List String :=
  (splitAt separator text.toList).map String.ofList

def joinChars (separator : Char) : List (List Char) → List Char
  | [] => []
  | [last] => last
  | first :: second :: others => first ++ separator :: joinChars separator (second :: others)

def join (separator : Char) (parts : List String) : String :=
  String.ofList (joinChars separator (parts.map String.toList))

theorem splitAt_ne_nil (separator : Char) (text : List Char) : splitAt separator text ≠ [] := by
  cases text with
  | nil => simp [splitAt]
  | cons c rest =>
    unfold splitAt
    split
    · simp
    · split <;> simp

theorem joinChars_splitAt (separator : Char) (text : List Char) :
    joinChars separator (splitAt separator text) = text := by
  induction text with
  | nil => rfl
  | cons c rest ih =>
    unfold splitAt
    split
    · rename_i same
      subst same
      cases parts : splitAt c rest with
      | nil => exact absurd parts (splitAt_ne_nil c rest)
      | cons first others =>
        rw [parts] at ih
        simp only [joinChars, ih, List.nil_append]
    · cases parts : splitAt separator rest with
      | nil => exact absurd parts (splitAt_ne_nil separator rest)
      | cons first others =>
        rw [parts] at ih
        cases others with
        | nil => simpa only [joinChars, List.cons.injEq, true_and] using ih
        | cons second others => simpa only [joinChars, List.cons_append, List.cons.injEq, true_and] using ih

end SchemaMarshal.Text
