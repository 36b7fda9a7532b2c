import Mathlib.Data.List.Basic

/-!
# CodeSage.Lib.Steps

Labelled transition systems given by a step function:

* `Outcome σ`: what one atomic step does. `disabled` means the step cannot be taken in this
  state; `panicked` means the program takes it and aborts.
* `Steps step s s'`: `s'` is reached from `s` by finitely many completed steps.
* `run`: the executable version of `Steps`, for a given list of labels.

`Steps.invariant` is the only induction a safety proof needs: a property of the start state
that every completed step keeps holds in every state reached.
-/

namespace Lib

inductive Outcome (σ : Type) where
  | next (s : σ)
  | panicked
  | disabled

namespace Outcome

/-- Continue with `f` if the step completed; otherwise keep the outcome. -/
def andThen {σ τ : Type} : Outcome σ → (σ → Outcome τ) → Outcome τ
  | .next s, f => f s
  | .panicked, _ => .panicked
  | .disabled, _ => .disabled

theorem andThen_eq_next {σ τ : Type} {o : Outcome σ} {f : σ → Outcome τ} {t : τ} :
    o.andThen f = .next t ↔ ∃ s, o = .next s ∧ f s = .next t := by
  cases o <;> simp [andThen]

/-- A decidable test of the state reached, false when the step does not complete. -/
def test {σ : Type} (p : σ → Bool) : Outcome σ → Bool
  | .next s => p s
  | _ => false

theorem test_eq_true {σ : Type} {p : σ → Bool} {o : Outcome σ} :
    o.test p = true ↔ ∃ s, o = .next s ∧ p s = true := by
  cases o <;> simp [test]

end Outcome

section Transition

variable {σ α : Type} {step : σ → α → Outcome σ}

inductive Steps (step : σ → α → Outcome σ) : σ → σ → Prop where
  | refl {s : σ} : Steps step s s
  | tail {s s' s'' : σ} (a : α) : Steps step s s' → step s' a = .next s'' → Steps step s s''

namespace Steps

theorem single {s s' : σ} (a : α) (h : step s a = .next s') : Steps step s s' := .tail a .refl h

theorem trans {s s' s'' : σ} (h₁ : Steps step s s') (h₂ : Steps step s' s'') :
    Steps step s s'' := by
  induction h₂ with
  | refl => exact h₁
  | tail a _ hs ih => exact .tail a ih hs

theorem invariant {P : σ → Prop} (hP : ∀ s a s', P s → step s a = .next s' → P s') {s s' : σ}
    (h : Steps step s s') (h0 : P s) : P s' := by
  induction h with
  | refl => exact h0
  | tail a _ hs ih => exact hP _ a _ ih hs

end Steps

/-- The system with only those steps that meet a condition on the state they are taken in. -/
def guarded (ok : σ → α → Bool) (step : σ → α → Outcome σ) (s : σ) (a : α) : Outcome σ :=
  if ok s a then step s a else .disabled

theorem guarded_eq_next {ok : σ → α → Bool} {s s' : σ} {a : α} :
    guarded ok step s a = .next s' ↔ ok s a = true ∧ step s a = .next s' := by
  unfold guarded
  split
  · rename_i h
    exact (and_iff_right h).symm
  · rename_i h
    constructor
    · exact nofun
    · exact fun hboth => absurd hboth.1 h

/-- Take the steps of a list in order. -/
def run (step : σ → α → Outcome σ) : σ → List α → Outcome σ
  | s, [] => .next s
  | s, a :: as => (step s a).andThen fun s' => run step s' as

theorem run_steps {as : List α} : ∀ {s s' : σ}, run step s as = .next s' → Steps step s s' := by
  induction as with
  | nil =>
    intro s s' h
    simp only [run] at h
    cases h
    exact .refl
  | cons a as ih =>
    intro s s' h
    obtain ⟨s1, h1, h2⟩ := Outcome.andThen_eq_next.mp h
    exact (Steps.single a h1).trans (ih h2)

/-- A trace that ends in a state passing the test `p` shows that such a state is reachable. -/
theorem steps_of_run (step : σ → α → Outcome σ) (s : σ) (as : List α) (p : σ → Bool)
    (h : (run step s as).test p = true) : ∃ s', Steps step s s' ∧ p s' = true := by
  obtain ⟨s', hs, hp⟩ := Outcome.test_eq_true.mp h
  exact ⟨s', run_steps hs, hp⟩

end Transition

end Lib
