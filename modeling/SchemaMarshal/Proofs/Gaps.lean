import SchemaMarshal.Proofs.Spelling

/-! Trivia as a form of text, apart from how it is skipped.

A gap is made of blanks and closed comments. Every text is a gap and then something that is no
trivia, ends the text inside a comment, or is empty; skipping takes the gap and stops there.
-/

set_option autoImplicit false

namespace SchemaMarshal.Trivia

/-- Blanks and closed comments. A line comment has its line feed, and a block comment is closed by
the first star and slash after its opening. -/
inductive Gap : List Char → Prop where
  | nil : Gap []
  | blank {c : Char} {rest : List Char} : Text.isBlank c = true → Gap rest → Gap (c :: rest)
  | line {body rest : List Char} : '\n' ∉ body → Gap rest → Gap ('/' :: '/' :: (body ++ '\n' :: rest))
  | block {body rest : List Char} : ¬ ['*', '/'] <:+: body → Gap rest →
      Gap ('/' :: '*' :: (body ++ '*' :: '/' :: rest))

/-- Trivia through the end of a text, where a line comment needs no line feed. -/
def Closing (text : List Char) : Prop :=
  Gap text ∨ ∃ gap body, Gap gap ∧ '\n' ∉ body ∧ text = gap ++ '/' :: '/' :: body

/-- How a text goes on where no gap does. -/
inductive Stop : List Char → Prop where
  | ended : Stop []
  | openLine {body : List Char} : '\n' ∉ body → Stop ('/' :: '/' :: body)
  | openBlock {body : List Char} : ¬ ['*', '/'] <:+: body → Stop ('/' :: '*' :: body)
  | solid {head : Char} {tail : List Char} : Text.isBlank head = false → ¬ ['/', '/'] <+: head :: tail →
      ¬ ['/', '*'] <+: head :: tail → Stop (head :: tail)

theorem Gap.append {first second : List Char} (gap : Gap first) (later : Gap second) : Gap (first ++ second) := by
  induction gap with
  | nil => exact later
  | blank isBlank _ ih => exact .blank isBlank ih
  | line single _ ih =>
    rw [List.cons_append, List.cons_append, List.append_assoc, List.cons_append]
    exact .line single ih
  | block inside _ ih =>
    rw [List.cons_append, List.cons_append, List.append_assoc, List.cons_append, List.cons_append]
    exact .block inside ih

theorem Closing.append_feed {text : List Char} (closing : Closing text) : Gap (text ++ ['\n']) := by
  rcases closing with gap | ⟨gap, body, isGap, single, rfl⟩
  · exact gap.append (.blank (by decide) .nil)
  · rw [List.append_assoc]
    exact isGap.append (.line single .nil)

theorem block_split (text : List Char) :
    (∃ body rest, text = body ++ '*' :: '/' :: rest ∧ ¬ ['*', '/'] <:+: body) ∨ ¬ ['*', '/'] <:+: text := by
  induction text with
  | nil => exact Or.inr (by simp)
  | cons c text ih =>
    by_cases closes : ['*', '/'] <+: c :: text
    · obtain ⟨rest, same⟩ := closes
      exact Or.inl ⟨[], rest, same.symm, by simp⟩
    · rcases ih with ⟨body, rest, rfl, inside⟩ | inside
      · refine Or.inl ⟨c :: body, rest, rfl, ?_⟩
        rw [List.infix_cons_iff, not_or]
        exact ⟨fun early => closes (early.trans (List.prefix_append _ _)), inside⟩
      · refine Or.inr ?_
        rw [List.infix_cons_iff, not_or]
        exact ⟨closes, inside⟩

theorem exists_gap (text : List Char) : ∃ gap rest, text = gap ++ rest ∧ Gap gap ∧ Stop rest := by
  induction length : text.length using Nat.strongRecOn generalizing text with
  | ind size ih =>
    subst length
    cases text with
    | nil => exact ⟨[], [], rfl, .nil, .ended⟩
    | cons head tail =>
      by_cases blank : Text.isBlank head = true
      · obtain ⟨gap, rest, rfl, isGap, stop⟩ := ih tail.length (by simp) tail rfl
        exact ⟨head :: gap, rest, rfl, .blank blank isGap, stop⟩
      by_cases line : ['/', '/'] <+: head :: tail
      · obtain ⟨text, same⟩ := line
        cases same
        by_cases feed : '\n' ∈ text
        · obtain ⟨body, later, rfl, single⟩ := List.eq_append_cons_of_mem feed
          obtain ⟨gap, rest, rfl, isGap, stop⟩ := ih later.length (by simp; omega) later rfl
          exact ⟨_, rest, by simp, .line single isGap, stop⟩
        · exact ⟨[], _, rfl, .nil, .openLine feed⟩
      by_cases block : ['/', '*'] <+: head :: tail
      · obtain ⟨text, same⟩ := block
        cases same
        rcases block_split text with ⟨body, later, rfl, inside⟩ | inside
        · obtain ⟨gap, rest, rfl, isGap, stop⟩ := ih later.length (by simp; omega) later rfl
          exact ⟨_, rest, by simp, .block inside isGap, stop⟩
        · exact ⟨[], _, rfl, .nil, .openBlock inside⟩
      · exact ⟨[], _, rfl, .nil, .solid (by simpa using blank) line block⟩

theorem skip_line_body {body : List Char} (single : '\n' ∉ body) (position : Position) (rest : List Char) :
    skip .line position (body ++ rest) = skip .line (position.after body) rest := by
  induction body generalizing position with
  | nil => rfl
  | cons c body ih =>
    simp only [List.mem_cons, not_or] at single
    rw [List.cons_append, skip, if_neg (Ne.symm single.1), ih single.2]
    rfl

-- A star at the end of the body must not meet a slash after it.
theorem skip_block_body {body : List Char} (inside : ¬ ['*', '/'] <:+: body) (start position : Position)
    {rest : List Char} (apart : rest.head? ≠ some '/') :
    skip (.block start) position (body ++ rest) = skip (.block start) (position.after body) rest := by
  induction body generalizing position with
  | nil => rfl
  | cons c body ih =>
    rw [List.infix_cons_iff, not_or] at inside
    rw [List.cons_append, skip, ih inside.2]
    · rfl
    · intro later star slash
      cases body with
      | nil => exact apart (by rw [← List.nil_append rest, slash]; rfl)
      | cons next body =>
        cases slash
        exact inside.1 ⟨body, by rw [star]; rfl⟩

theorem skip_gap {gap : List Char} (isGap : Gap gap) (position : Position) (rest : List Char) :
    skip .between position (gap ++ rest) = skip .between (position.after gap) rest := by
  induction isGap generalizing position with
  | nil => rfl
  | blank isBlank _ ih => rw [List.cons_append, skip_blank isBlank, ih, Position.after_cons]
  | @line body later single _ ih =>
    rw [List.cons_append, List.cons_append, List.append_assoc, List.cons_append, skip, skip_line_body single, skip,
      if_pos rfl, ih]
    simp [Position.after_append]
  | @block body later inside _ ih =>
    rw [List.cons_append, List.cons_append, List.append_assoc, List.cons_append, List.cons_append, skip,
      skip_block_body inside _ _ (by simp), skip, ih]
    simp [Position.after_append]

theorem skip_openLine {body : List Char} (single : '\n' ∉ body) (position : Position) :
    skip .between position ('/' :: '/' :: body) = .clear (position.after ('/' :: '/' :: body)) [] := by
  have through := skip_line_body single (position.after ['/', '/']) []
  rw [List.append_nil] at through
  rw [skip, through]
  rfl

theorem skip_openBlock {body : List Char} (inside : ¬ ['*', '/'] <:+: body) (position : Position) :
    skip .between position ('/' :: '*' :: body) = .openComment position (position.after ('/' :: '*' :: body)) := by
  have through := skip_block_body inside position (position.after ['/', '*']) (by simp : [].head? ≠ some '/')
  rw [List.append_nil] at through
  rw [skip, through]
  rfl

theorem skip_of_solid {head : Char} {tail : List Char} (solid : Text.isBlank head = false)
    (line : ¬ ['/', '/'] <+: head :: tail) (block : ¬ ['/', '*'] <+: head :: tail) (position : Position) :
    skip .between position (head :: tail) = .clear position (head :: tail) := by
  rw [skip]
  · simp [solid]
  · rintro later rfl rfl
    exact line ⟨later, rfl⟩
  · rintro later rfl rfl
    exact block ⟨later, rfl⟩

end SchemaMarshal.Trivia
