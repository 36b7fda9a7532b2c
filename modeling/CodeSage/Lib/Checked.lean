import Mathlib.Algebra.Order.Ring.Int
import Mathlib.Data.Nat.Init
import Mathlib.Tactic.Common

/-!
# CodeSage.Lib.Checked

Arithmetic of the machine word `usize` (64 bits) on natural numbers. An operation that overflows
or underflows panics, which is `none`; so does a slice that leaves its array.
-/

namespace Lib

def usizeMax : Nat := 2 ^ 64 - 1

def usizeAdd (a b : Nat) : Option Nat := if a + b ≤ usizeMax then some (a + b) else none

def usizeSub (a b : Nat) : Option Nat := if b ≤ a then some (a - b) else none

def usizeSaturatingMul (a b : Nat) : Nat := min (a * b) usizeMax

/-- `&xs[a..b]` -/
def slice {α : Type} (xs : List α) (a b : Nat) : Option (List α) :=
  if a ≤ b ∧ b ≤ xs.length then some ((xs.take b).drop a) else none

theorem usizeAdd_eq {a b : Nat} (h : a + b ≤ usizeMax) : usizeAdd a b = some (a + b) := if_pos h

theorem usizeAdd_some {a b c : Nat} (h : usizeAdd a b = some c) : c = a + b := by
  simp only [usizeAdd] at h
  split at h
  · exact (Option.some.inj h).symm
  · cases h

theorem usizeSub_eq {a b : Nat} (h : b ≤ a) : usizeSub a b = some (a - b) := if_pos h

theorem slice_eq {α : Type} {xs : List α} {a b : Nat} (h : a ≤ b) (h' : b ≤ xs.length) :
    slice xs a b = some ((xs.take b).drop a) := if_pos ⟨h, h'⟩

end Lib
