import Mathlib.Logic.Function.Basic

/-!
# CodeSage.Lib.Holders

Exclusive locks with an owner, for processes that hold one lock at a time: `Owned` says that the table of the locks and
the places of the processes agree. A place is a control point, and `lock` tells which lock a process holds there.
-/

namespace Lib

variable {κ π : Type} {lock : Nat → π → Option κ} {locks : κ → Option Nat} {places : Nat → π} {p q : Nat} {k : κ} {place : π}

/-- A lock belongs to a process just when the process is where it holds it. -/
def Owned (lock : Nat → π → Option κ) (locks : κ → Option Nat) (places : Nat → π) : Prop :=
  ∀ p k, locks k = some p ↔ lock p (places p) = some k

namespace Owned

theorem exclusive (h : Owned lock locks places) (hp : lock p (places p) = some k) (hq : lock q (places q) = some k) : p = q := by
  have hsame := ((h p k).mpr hp).symm.trans ((h q k).mpr hq)
  exact Option.some.inj hsame

/-- The process goes on with what it holds. -/
theorem keep (h : Owned lock locks places) (hlock : lock p place = lock p (places p)) :
    Owned lock locks (Function.update places p place) := by
  intro q k
  by_cases hq : q = p
  · subst hq
    rw [Function.update_self, hlock]
    exact h q k
  · rw [Function.update_of_ne hq]
    exact h q k

/-- A process that holds nothing takes a free lock. -/
theorem take [DecidableEq κ] (h : Owned lock locks places) (hfree : locks k = none) (hidle : lock p (places p) = none)
    (hlock : lock p place = some k) : Owned lock (Function.update locks k (some p)) (Function.update places p place) := by
  intro q k'
  by_cases hk : k' = k
  · subst hk
    rw [Function.update_self]
    by_cases hq : q = p
    · subst hq
      simp [hlock]
    · rw [Function.update_of_ne hq, ← h q k', hfree]
      simp [Ne.symm hq]
  · rw [Function.update_of_ne hk, h q k']
    by_cases hq : q = p
    · subst hq
      simp [hlock, hidle, Ne.symm hk]
    · rw [Function.update_of_ne hq]

/-- A process gives up what it holds. -/
theorem release (h : Owned lock locks places) (hlock : lock p place = none) :
    Owned lock (fun k => if locks k = some p then none else locks k) (Function.update places p place) := by
  intro q k
  by_cases hq : q = p
  · subst hq
    rw [Function.update_self, hlock]
    simp
  · rw [Function.update_of_ne hq, ← h q k]
    dsimp only
    split
    · rename_i hheld
      simp [hheld, Ne.symm hq]
    · rfl

end Owned

end Lib
