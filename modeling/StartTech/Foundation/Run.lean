import Mathlib.Data.List.Basic

/-!
# Runs of a machine that may stop

A machine takes one step for each action. A run that meets a condition at each of
its steps keeps what every such step keeps.
-/

namespace StartTech.Foundation

variable {S A : Type*}

/-- One step for each action; `none` when a step is not possible. -/
def runFrom (step : S → A → Option S) (s : S) : List A → Option S
  | [] => some s
  | a :: rest => (step s a).bind fun s => runFrom step s rest

/-- Every step of a run meets a condition in the state in which it is taken. -/
def meetsFrom (step : S → A → Option S) (cond : S → A → Bool) (s : S) : List A → Bool
  | [] => true
  | a :: rest =>
    cond s a &&
      match step s a with
      | none => true
      | some s => meetsFrom step cond s rest

variable {step : S → A → Option S} {cond : S → A → Bool} {inv : S → Prop} {actions : List A}

/-- Steps that meet a condition are possible and keep an invariant, so runs of them
are and do. -/
theorem runFrom_invariant
    (hkeep : ∀ {s a}, inv s → cond s a = true → ∃ s', step s a = some s' ∧ inv s') {s : S}
    (h : inv s) (hmeets : meetsFrom step cond s actions = true) :
    ∃ s', runFrom step s actions = some s' ∧ inv s' := by
  induction actions generalizing s with
  | nil => exact ⟨s, rfl, h⟩
  | cons a rest ih =>
    rw [meetsFrom, Bool.and_eq_true] at hmeets
    obtain ⟨s₁, hstep, h₁⟩ := hkeep h hmeets.1
    rw [hstep] at hmeets
    obtain ⟨s', hrun, h'⟩ := ih h₁ hmeets.2
    exact ⟨s', by rw [runFrom, hstep, Option.bind_some, hrun], h'⟩

/-- Steps that meet a condition keep an invariant, so the runs of them that are possible do. -/
theorem invariant_of_runFrom
    (hkeep : ∀ {s a s'}, inv s → cond s a = true → step s a = some s' → inv s') {s s' : S}
    (h : inv s) (hmeets : meetsFrom step cond s actions = true)
    (hrun : runFrom step s actions = some s') : inv s' := by
  induction actions generalizing s with
  | nil =>
    cases hrun
    exact h
  | cons a rest ih =>
    rw [meetsFrom, Bool.and_eq_true] at hmeets
    obtain ⟨s₁, hstep, hrun⟩ := Option.bind_eq_some_iff.mp hrun
    rw [hstep] at hmeets
    exact ih (hkeep h hmeets.1 hstep) hmeets.2 hrun

end StartTech.Foundation
