import Mathlib.Logic.Relation
import Mathlib.Tactic.Common

/-!
# CodeSage.Lib.Reach

Reachability with the number of steps: `ReachIn R S n x` says that a chain of `n` steps leads from a
member of `S` to `x`.
-/

namespace Lib

variable {α : Type}

def ReachIn (R : α → α → Prop) (S : α → Prop) : Nat → α → Prop
  | 0, x => S x
  | n + 1, x => ∃ y, ReachIn R S n y ∧ R y x

variable {R : α → α → Prop} {S : α → Prop}

/-- What holds of the sources and is kept by every step from a node reached holds of every node
reached. -/
theorem ReachIn.invariant {P : Nat → α → Prop} (base : ∀ x, S x → P 0 x)
    (step : ∀ n x y, ReachIn R S n x → P n x → R x y → P (n + 1) y) :
    ∀ {n x}, ReachIn R S n x → P n x := by
  intro n
  induction n with
  | zero => exact fun h => base _ h
  | succ n ih =>
    rintro x ⟨y, hy, hxy⟩
    exact step n y x hy (ih hy) hxy

end Lib
