import Mathlib.Data.List.Forall2

/-! When computations that may fail succeed, step by step, and when two of them end alike. -/

set_option autoImplicit false

namespace SchemaMarshal

section

variable {α β ε : Type}

theorem bind_eq_ok_iff {computation : Except ε α} {following : α → Except ε β} {result : β} :
    computation >>= following = .ok result ↔
      ∃ value, computation = .ok value ∧ following value = .ok result := by
  cases computation with
  | error error => simp [bind, Except.bind]
  | ok value => simp [bind, Except.bind]

theorem mapError_eq_ok_iff {ε' : Type} {rename : ε → ε'} {computation : Except ε α} {result : α} :
    computation.mapError rename = .ok result ↔ computation = .ok result := by
  cases computation <;> simp [Except.mapError]

theorem toOption_eq_some_iff {computation : Except ε α} {result : α} :
    computation.toOption = some result ↔ computation = .ok result := by
  cases computation <;> simp [Except.toOption]

theorem foldlM_cons_eq_ok_iff {step : β → α → Except ε β} {start final : β} {head : α} {tail : List α} :
    (head :: tail).foldlM step start = .ok final ↔
      ∃ middle, step start head = .ok middle ∧ tail.foldlM step middle = .ok final := by
  rw [List.foldlM_cons, bind_eq_ok_iff]

theorem mapM_eq_ok_iff {step : α → Except ε β} {values : List α} {results : List β} :
    values.mapM step = .ok results ↔ List.Forall₂ (fun value result => step value = .ok result) values results := by
  induction values generalizing results with
  | nil => cases results <;> simp [pure, Except.pure]
  | cons value rest ih =>
    rw [List.mapM_cons]
    simp only [bind_eq_ok_iff, ih]
    cases results with
    | nil => simp [pure, Except.pure]
    | cons result others => simp [pure, Except.pure]

/-- A traversal fails with the error of the first value that fails. -/
theorem mapM_eq_error_iff {step : α → Except ε β} {values : List α} {error : ε} :
    values.mapM step = .error error ↔
      ∃ before value after, values = before ++ value :: after ∧
        (∀ earlier ∈ before, ∃ result, step earlier = .ok result) ∧ step value = .error error := by
  induction values with
  | nil => simp [pure, Except.pure]
  | cons head tail ih =>
    rw [List.mapM_cons]
    constructor
    · intro failed
      cases first : step head with
      | error other =>
        rw [first] at failed
        cases failed
        exact ⟨[], head, tail, rfl, by simp, first⟩
      | ok result =>
        have later : tail.mapM step = .error error := by
          rw [first] at failed
          cases rest : tail.mapM step with
          | error other =>
            rw [rest] at failed
            exact failed
          | ok results =>
            rw [rest] at failed
            cases failed
        obtain ⟨before, value, after, rfl, succeeded, fails⟩ := ih.mp later
        refine ⟨head :: before, value, after, rfl, ?_, fails⟩
        exact List.forall_mem_cons.mpr ⟨⟨result, first⟩, succeeded⟩
    · rintro ⟨before, value, after, split, succeeded, fails⟩
      cases before with
      | nil =>
        cases split
        rw [fails]
        rfl
      | cons first before =>
        cases split
        obtain ⟨⟨result, done⟩, others⟩ := List.forall_mem_cons.mp succeeded
        rw [done, ih.mpr ⟨before, value, after, rfl, others, fails⟩]
        rfl

/-- Both fail with the same error, or both succeed with related results. -/
inductive Agree (related : α → β → Prop) : Except ε α → Except ε β → Prop where
  | error (error : ε) : Agree related (.error error) (.error error)
  | ok {first : α} {second : β} (same : related first second) : Agree related (.ok first) (.ok second)

theorem Agree.bind {γ δ : Type} {related : α → β → Prop} {final : γ → δ → Prop} {first : Except ε α}
    {second : Except ε β} {firstNext : α → Except ε γ} {secondNext : β → Except ε δ}
    (start : Agree related first second)
    (next : ∀ value other, related value other → Agree final (firstNext value) (secondNext other)) :
    Agree final (first >>= firstNext) (second >>= secondNext) := by
  cases start with
  | error error => exact .error error
  | ok same => exact next _ _ same

theorem Agree.mapError {ε' : Type} {related : α → β → Prop} {first : Except ε α} {second : Except ε β}
    (rename : ε → ε') (agree : Agree related first second) :
    Agree related (first.mapError rename) (second.mapError rename) := by
  cases agree with
  | error error => exact .error (rename error)
  | ok same => exact .ok same

theorem Agree.foldlM {γ : Type} {related : α → β → Prop} {firstStep : α → γ → Except ε α}
    {secondStep : β → γ → Except ε β} {values : List γ}
    (step : ∀ value ∈ values, ∀ first second, related first second →
      Agree related (firstStep first value) (secondStep second value))
    {first : α} {second : β} (start : related first second) :
    Agree related (values.foldlM firstStep first) (values.foldlM secondStep second) := by
  induction values generalizing first second with
  | nil => exact .ok start
  | cons value rest ih =>
    simp only [List.foldlM_cons]
    refine (step value (by simp) first second start).bind ?_
    intro firstAfter secondAfter after
    exact ih (fun other member => step other (List.mem_cons_of_mem _ member)) after

/-- Computations that agree are equal as far as a view of related results goes. -/
theorem Agree.map_eq {γ : Type} {related : α → β → Prop} {first : Except ε α} {second : Except ε β}
    {firstView : α → γ} {secondView : β → γ} (agree : Agree related first second)
    (views : ∀ value other, related value other → firstView value = secondView other) :
    first.map firstView = second.map secondView := by
  cases agree with
  | error error => rfl
  | ok same => exact congrArg Except.ok (views _ _ same)

end

end SchemaMarshal
