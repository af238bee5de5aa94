import Mathlib.Data.Prod.Lex
import SchemaMarshal.Proofs.Tiling

/-! Pulling goes on through faults until it is stuck for good.

A pull advances past some of the text, or it settles: at the end, or in front of a character that begins
nothing. `Cursor.Course` says what one pull does to the cursor and `Cursor.Runs` what pulls in turn do; how
many of them advance and in which order they stand follows by induction on the run.
-/

set_option autoImplicit false

namespace SchemaMarshal

namespace Position

/-- Lines in order, and columns in order within a line. -/
instance : PartialOrder Position :=
  PartialOrder.lift (fun position => toLex (position.line, position.column)) <| by
    rintro ⟨line, column⟩ ⟨otherLine, otherColumn⟩ same
    cases same
    rfl

theorem lt_iff {first second : Position} :
    first < second ↔ first.line < second.line ∨ first.line = second.line ∧ first.column < second.column :=
  Prod.Lex.toLex_lt_toLex

theorem lt_advance (position : Position) (c : Char) : position < position.advance c := by
  rw [lt_iff, advance]
  split
  · exact Or.inl (Nat.lt_succ_self _)
  · exact Or.inr ⟨rfl, Nat.lt_succ_self _⟩

theorem le_after (position : Position) (text : List Char) : position ≤ position.after text := by
  induction text generalizing position with
  | nil => exact le_rfl
  | cons c text ih => exact (lt_advance position c).le.trans (ih _)

theorem lt_after_cons (position : Position) (c : Char) (text : List Char) : position < position.after (c :: text) :=
  (lt_advance position c).trans_le (le_after _ text)

end Position

namespace Cursor

/-- The pull goes past some of the text: a token, or a literal or a comment that is left open. -/
def Pull.advances : Pull → Bool
  | .token _ => true
  | .finished | .fault _ (.unexpected _) => false
  | .fault _ .openComment | .fault _ .openString | .fault _ .openEscape => true

def Pull.position? : Pull → Option Position
  | .token read => some read.position
  | .finished => none
  | .fault position _ => some position

/-- What a pull does to a cursor: it goes past at least the character it stands in front of, or it comes to
where pulling gives the same again and again. -/
inductive Course : Cursor → Pull × Cursor → Prop where
  | advanced {gap inner rest : List Char} {head : Char} {pull : Pull} (position : Position) : pull.advances = true →
      pull.position? = some (position.after gap) →
      Course ⟨position, gap ++ head :: (inner ++ rest)⟩ (pull, ⟨(position.after gap).after (head :: inner), rest⟩)
  | settled {cursor after : Cursor} {pull : Pull} : pull.advances = false → after.next = (pull, after) →
      (∀ place ∈ pull.position?, cursor.position ≤ place) → Course cursor (pull, after)

theorem next_course (cursor : Cursor) : Course cursor cursor.next := by
  obtain ⟨position, text⟩ := cursor
  obtain ⟨gap, rest, rfl, isGap, stop⟩ := Trivia.exists_gap text
  rw [next_gap isGap]
  cases stop with
  | ended => exact .settled rfl rfl (by simp [Pull.position?])
  | openLine single =>
    rw [next_openLine single]
    exact .settled rfl rfl (by simp [Pull.position?])
  | @openBlock body inside =>
    rw [next_openBlock inside]
    have course : Course ⟨position, gap ++ '/' :: ('*' :: body ++ [])⟩
        (.fault (position.after gap) .openComment, ⟨(position.after gap).after ('/' :: '*' :: body), []⟩) :=
      .advanced position rfl rfl
    rwa [List.append_nil] at course
  | @solid head tail solid line block =>
    cases scanned : Lexeme.scan head tail with
    | token kind lexeme rest =>
      obtain ⟨inner, rfl, rfl, -⟩ := Lexeme.scan_takes scanned
      rw [next_lexeme scanned]
      exact .advanced position rfl rfl
    | fault cause spoiled rest =>
      have pulled := next_fault solid line block scanned
      rw [pulled]
      rcases Lexeme.scan_fault scanned with ⟨rfl, rfl, rfl⟩ | ⟨-, unclosed, inner, rfl, rfl⟩
      · -- The character stays where it is, and nothing is left to skip in front of it.
        refine .settled rfl (pulled _) ?_
        rintro place ⟨⟩
        exact position.le_after gap
      · refine .advanced position ?_ rfl
        rcases unclosed with rfl | rfl <;> rfl

theorem exists_taken {cursor after : Cursor} {pull : Pull} (pulled : cursor.next = (pull, after))
    (advances : pull.advances = true) : ∃ taken, taken ≠ [] ∧ cursor.rest = taken ++ after.rest := by
  have course := cursor.next_course
  rw [pulled] at course
  cases course with
  | @advanced gap inner _ head => exact ⟨gap ++ head :: inner, by simp, by simp⟩
  | settled still => exact absurd advances (by simp [still])

def reached (cursor : Cursor) (index : Nat) : Cursor := (fun cursor => cursor.next.2)^[index] cursor

theorem reached_succ (cursor : Cursor) (index : Nat) : cursor.reached (index + 1) = (cursor.reached index).next.2 :=
  Function.iterate_succ_apply' _ index cursor

theorem next_reached (cursor : Cursor) {count index : Nat} {pull : Pull}
    (pulled : (cursor.pulls count)[index]? = some pull) :
    (cursor.reached index).next = (pull, cursor.reached (index + 1)) := by
  rw [reached_succ]
  induction count generalizing cursor index with
  | zero => cases pulled
  | succ count ih =>
    cases index with
    | zero =>
      cases pulled
      rfl
    | succ index => exact ih cursor.next.2 pulled

/-- Pulls that advance, and then the one where they settle as often as it is asked for. -/
inductive Runs : Cursor → List Pull → Prop where
  | nil (cursor : Cursor) : Runs cursor []
  | settled {cursor : Cursor} {pull : Pull} (count : Nat) : pull.advances = false →
      (∀ place ∈ pull.position?, cursor.position ≤ place) → Runs cursor (List.replicate count pull)
  | advanced {gap inner rest : List Char} {head : Char} {pull : Pull} {later : List Pull} (position : Position) :
      pull.advances = true → pull.position? = some (position.after gap) →
      Runs ⟨(position.after gap).after (head :: inner), rest⟩ later →
      Runs ⟨position, gap ++ head :: (inner ++ rest)⟩ (pull :: later)

theorem pulls_of_next {cursor : Cursor} {pull : Pull} (settled : cursor.next = (pull, cursor)) (count : Nat) :
    cursor.pulls count = List.replicate count pull := by
  induction count with
  | zero => rfl
  | succ count ih => rw [pulls, settled, ih, List.replicate_succ]

theorem runs_pulls (cursor : Cursor) (count : Nat) : Runs cursor (cursor.pulls count) := by
  induction count generalizing cursor with
  | zero => exact .nil cursor
  | succ count ih =>
    have course := cursor.next_course
    rw [pulls]
    generalize cursor.next = pulled at course ⊢
    cases course with
    | advanced position advances place => exact .advanced position advances place (ih _)
    | settled still settled bound =>
      rw [pulls_of_next settled, ← List.replicate_succ]
      exact .settled (count + 1) still bound

namespace Runs

variable {cursor : Cursor} {run : List Pull}

theorem same_of_settled (runs : Runs cursor run) :
    run.Pairwise fun earlier later => earlier.advances = false → later = earlier := by
  induction runs with
  | nil => exact .nil
  | settled count _ _ => exact List.pairwise_replicate.mpr (Or.inr fun _ => rfl)
  | advanced _ advances _ _ ih => exact .cons (fun later _ still => absurd advances (by simp [still])) ih

theorem position_le (runs : Runs cursor run) :
    ∀ pull ∈ run, ∀ place ∈ pull.position?, cursor.position ≤ place := by
  induction runs with
  | nil => simp
  | settled count _ bound =>
    intro pull member
    rwa [List.eq_of_mem_replicate member]
  | @advanced gap inner rest head pull later position _ found _ ih =>
    have front : position ≤ position.after gap := position.le_after gap
    refine List.forall_mem_cons.mpr ⟨?_, fun second member place stands => ?_⟩
    · rw [found]
      rintro place ⟨⟩
      exact front
    · calc position ≤ position.after gap := front
        _ ≤ (position.after gap).after (head :: inner) := Position.le_after _ _
        _ ≤ place := ih second member place stands

theorem position_lt (runs : Runs cursor run) :
    run.Pairwise fun earlier later => earlier.advances = true →
      ∀ first ∈ earlier.position?, ∀ second ∈ later.position?, first < second := by
  induction runs with
  | nil => exact .nil
  | settled count still _ => exact List.pairwise_replicate.mpr (Or.inr fun advances => absurd advances (by simp [still]))
  | @advanced gap inner rest head pull later position _ found runs ih =>
    refine .cons (fun other member _ => ?_) ih
    rw [found]
    rintro first ⟨⟩ second stands
    exact (Position.lt_after_cons _ head inner).trans_le (runs.position_le other member second stands)

theorem countP_le (runs : Runs cursor run) : run.countP Pull.advances ≤ cursor.rest.length := by
  induction runs with
  | nil => exact Nat.zero_le _
  | settled count still _ => simp [List.countP_replicate, still]
  | @advanced gap inner rest head pull later position advances _ _ ih =>
    have behind : later.countP Pull.advances ≤ rest.length := ih
    rw [List.countP_cons_of_pos advances]
    simp only [List.length_append, List.length_cons]
    omega

end Runs

/-- Pulls over a text, on through faults and past the end. Where one finds the end or an unexpected
character, all later ones find the same. Each of the others goes past at least one character, so there are
no more of them than characters, and stands before all pulls after it. -/
theorem pulls_progress (text : String) (count : Nat) :
    let start := ofText text
    let run := start.pulls count
    (∀ index pull, run[index]? = some pull → Step (start.reached index) (pull, start.reached (index + 1))) ∧
    run.Pairwise (fun earlier later => earlier = .finished → later = .finished) ∧
    run.Pairwise (fun earlier later => ∀ position character,
      earlier = .fault position (.unexpected character) → later = .fault position (.unexpected character)) ∧
    (∀ index pull, run[index]? = some pull → pull.advances = true →
      ∃ taken, taken ≠ [] ∧ (start.reached index).rest = taken ++ (start.reached (index + 1)).rest) ∧
    run.countP Pull.advances ≤ text.length ∧
    run.Pairwise (fun earlier later => earlier.advances = true →
      ∀ first ∈ earlier.position?, ∀ second ∈ later.position?, first < second) := by
  intro start run
  have runs := runs_pulls start count
  refine ⟨?_, runs.same_of_settled.imp ?_, runs.same_of_settled.imp ?_, ?_, ?_, runs.position_lt⟩
  · intro index pull pulled
    rw [← next_reached start pulled]
    exact next_step _
  · rintro _ later same rfl
    exact same rfl
  · rintro _ later same position character rfl
    exact same rfl
  · intro index pull pulled advances
    exact exists_taken (next_reached start pulled) advances
  · rw [← String.length_toList]
    exact runs.countP_le

/-- The open literal ends with its line, the open comment takes all the rest, and the slash is never passed. -/
theorem pulls_progress_mixed :
    let text := "a 'b\n2 /*c"
    let commented := ofText text
    let slashed := ofText "\"\n/**/ /d"
    commented.pulls 6 =
      [.token ⟨.identifier "a", ⟨1, 1⟩⟩, .fault ⟨1, 3⟩ .openString, .token ⟨.integer "2", ⟨2, 1⟩⟩,
        .fault ⟨2, 3⟩ .openComment, .finished, .finished] ∧
    slashed.pulls 3 =
      [.fault ⟨1, 1⟩ .openString, .fault ⟨2, 6⟩ (.unexpected '/'), .fault ⟨2, 6⟩ (.unexpected '/')] ∧
    Step (slashed.reached 1) (.fault ⟨2, 6⟩ (.unexpected '/'), slashed.reached 2) ∧
    (commented.pulls 6).Pairwise (fun earlier later => earlier = .finished → later = .finished) ∧
    (slashed.pulls 3).Pairwise (fun earlier later => ∀ position character,
      earlier = .fault position (.unexpected character) → later = .fault position (.unexpected character)) ∧
    (∃ taken, taken ≠ [] ∧ (commented.reached 3).rest = taken ++ (commented.reached 4).rest) ∧
    (commented.pulls 6).countP Pull.advances ≤ text.length ∧
    (commented.pulls 6).Pairwise (fun earlier later => earlier.advances = true →
      ∀ first ∈ earlier.position?, ∀ second ∈ later.position?, first < second) := by
  intro text commented slashed
  have comment : (commented.pulls 6)[3]? = some (.fault ⟨2, 3⟩ .openComment) := by decide +kernel
  have slash : (slashed.pulls 3)[1]? = some (.fault ⟨2, 6⟩ (.unexpected '/')) := by decide +kernel
  obtain ⟨-, ended, -, taken, few, ordered⟩ := pulls_progress text 6
  obtain ⟨step, -, unexpected, -⟩ := pulls_progress "\"\n/**/ /d" 3
  exact ⟨by decide +kernel, by decide +kernel, step 1 _ slash, ended, unexpected, taken 3 _ comment rfl, few, ordered⟩

end Cursor

end SchemaMarshal
