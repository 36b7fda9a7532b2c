import Mathlib.Data.List.Basic

/-!
# CodeSage.Lib.Except

Rules for computations in `Except` that end without an error.
-/

namespace Lib
namespace Except

variable {ε α β : Type}

theorem bind_eq_ok {x : Except ε α} {f : α → Except ε β} {b : β} : x >>= f = .ok b ↔ ∃ a, x = .ok a ∧ f a = .ok b := by
  cases x with
  | error e => exact ⟨nofun, fun ⟨a, ha, _⟩ => nomatch ha⟩
  | ok a => exact ⟨fun h => ⟨a, rfl, h⟩, fun ⟨a', ha, hf⟩ => by cases ha; exact hf⟩

/-- What every step of a loop keeps holds at its end. -/
theorem foldlM_invariant {P : β → Prop} {f : β → α → Except ε β} {l : List α}
    (hstep : ∀ b a b', a ∈ l → P b → f b a = .ok b' → P b') {b b' : β} (hP : P b) (h : l.foldlM f b = .ok b') : P b' := by
  induction l generalizing b with
  | nil =>
    cases h
    exact hP
  | cons a l ih =>
    rw [List.foldlM_cons] at h
    obtain ⟨b₁, h₁, h₂⟩ := bind_eq_ok.mp h
    exact ih (fun b a b' ha => hstep b a b' (List.mem_cons_of_mem _ ha)) (hstep b a b₁ (List.mem_cons_self ..) hP h₁) h₂

/-- A loop whose every step ends well and keeps a property ends well with it. -/
theorem foldlM_ok {P : β → Prop} {f : β → α → Except ε β} {l : List α}
    (hstep : ∀ b a, a ∈ l → P b → ∃ b', f b a = .ok b' ∧ P b') {b : β} (hP : P b) : ∃ b', l.foldlM f b = .ok b' ∧ P b' := by
  induction l generalizing b with
  | nil => exact ⟨b, rfl, hP⟩
  | cons a l ih =>
    obtain ⟨b₁, h₁, hP₁⟩ := hstep b a List.mem_cons_self hP
    obtain ⟨b', h', hP'⟩ := ih (fun b a ha => hstep b a (List.mem_cons_of_mem _ ha)) hP₁
    exact ⟨b', by rw [List.foldlM_cons, h₁]; exact h', hP'⟩

/-- A decidable test of the result, false for an error. -/
def test (p : α → Bool) : Except ε α → Bool
  | .ok a => p a
  | .error _ => false

theorem test_eq_true {p : α → Bool} {x : Except ε α} : test p x = true ↔ ∃ a, x = .ok a ∧ p a = true := by
  cases x <;> simp [test]

end Except
end Lib
