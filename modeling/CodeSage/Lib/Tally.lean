import Mathlib.Algebra.Order.Ring.Int
import Mathlib.Algebra.BigOperators.Group.List.Basic

/-!
# CodeSage.Lib.Tally

Weighing the call stacks of a set of threads. A counting invariant of a concurrent program gives
each kind of frame a weight; `tally` adds the weights of all frames of all threads, and
`tally_set` says what replacing one thread's stack does to the total.
-/

namespace Lib

variable {φ : Type}

def weigh (w : φ → Nat) (k : List φ) : Nat := (k.map w).sum

@[simp] theorem weigh_nil (w : φ → Nat) : weigh w [] = 0 := rfl

@[simp] theorem weigh_cons (w : φ → Nat) (f : φ) (k : List φ) :
    weigh w (f :: k) = w f + weigh w k := rfl

/-- The weights of all frames of all stacks, added up. -/
def tally (w : φ → Nat) (ts : List (List φ)) : Nat := (ts.map (weigh w)).sum

@[simp] theorem tally_nil (w : φ → Nat) : tally w [] = 0 := rfl

@[simp] theorem tally_concat_nil (w : φ → Nat) (ts : List (List φ)) :
    tally w (ts ++ [[]]) = tally w ts := by
  simp [tally]

theorem tally_set {w : φ → Nat} {k m : List φ} :
    ∀ {ts : List (List φ)} {t : Nat}, ts[t]? = some k →
      tally w (ts.set t m) + weigh w k = tally w ts + weigh w m := by
  intro ts
  induction ts with
  | nil => intro t h; simp at h
  | cons k0 ts ih =>
    intro t h
    cases t with
    | zero =>
      simp only [List.getElem?_cons_zero, Option.some.injEq] at h
      subst h
      simp only [tally, List.set_cons_zero, List.map_cons, List.sum_cons]
      omega
    | succ t =>
      have := ih (t := t) (by simpa using h)
      simp only [tally, List.set_cons_succ, List.map_cons, List.sum_cons] at this ⊢
      omega

theorem weigh_le_tally {w : φ → Nat} {ts : List (List φ)} {t : Nat} {k : List φ}
    (h : ts[t]? = some k) : weigh w k ≤ tally w ts := by
  have := tally_set (w := w) (m := []) h
  simp only [weigh_nil] at this
  omega

theorem tally_eq_zero {w : φ → Nat} {ts : List (List φ)} :
    tally w ts = 0 ↔ ∀ k ∈ ts, ∀ f ∈ k, w f = 0 := by
  simp [tally, weigh, List.sum_eq_zero_iff_forall_eq_nat]

theorem tally_le {w w' : φ → Nat} (h : ∀ f, w f ≤ w' f) (ts : List (List φ)) :
    tally w ts ≤ tally w' ts := by
  have hk : ∀ k : List φ, weigh w k ≤ weigh w' k := by
    intro k
    induction k with
    | nil => exact Nat.le_refl _
    | cons f k ih => exact Nat.add_le_add (h f) ih
  induction ts with
  | nil => exact Nat.le_refl _
  | cons k ts ih => exact Nat.add_le_add (hk k) ih

end Lib
