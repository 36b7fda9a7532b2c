import CodeSage.Lib.Text
import Mathlib.Order.Basic

/-!
# CodeSage.Lib.TextOrder

The order of the standard library on strings, by their characters' code points.
-/

namespace Lib

def textLe : Text → Text → Bool
  | [], _ => true
  | _ :: _, [] => false
  | a :: as, b :: bs => a.toNat < b.toNat || a.toNat = b.toNat && textLe as bs

theorem textLe_total (s t : Text) : textLe s t = true ∨ textLe t s = true := by
  induction s generalizing t with
  | nil => exact Or.inl rfl
  | cons a s ih =>
    cases t with
    | nil => exact Or.inr rfl
    | cons b t =>
      simp only [textLe, Bool.or_eq_true, Bool.and_eq_true, decide_eq_true_eq]
      rcases lt_trichotomy a.toNat b.toNat with hab | hab | hab
      · exact Or.inl (Or.inl hab)
      · exact (ih t).imp (fun h => Or.inr ⟨hab, h⟩) fun h => Or.inr ⟨hab.symm, h⟩
      · exact Or.inr (Or.inl hab)

theorem textLe_trans {s t u : Text} (hst : textLe s t = true) (htu : textLe t u = true) : textLe s u = true := by
  induction s generalizing t u with
  | nil => rfl
  | cons a s ih =>
    cases t with
    | nil => cases hst
    | cons b t =>
      cases u with
      | nil => cases htu
      | cons c u =>
        simp only [textLe, Bool.or_eq_true, Bool.and_eq_true, decide_eq_true_eq] at hst htu ⊢
        rcases hst with hab | ⟨hab, hst⟩
        · omega
        · rcases htu with hbc | ⟨hbc, htu⟩
          · omega
          · exact Or.inr ⟨hab.trans hbc, ih hst htu⟩

end Lib
