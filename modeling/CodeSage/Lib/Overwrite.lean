import Mathlib.Data.List.Forall2

/-!
# CodeSage.Lib.Overwrite

Lists with a part overwritten by another of the same length.
-/

namespace Lib

section Overwrite

variable {α : Type} {R : α → α → Prop} {out text : List α} {a b i : Nat}

def overwrite (out : List α) (a b : Nat) (text : List α) : List α := out.take a ++ text ++ out.drop b

theorem length_overwrite (hab : a ≤ b) (hb : b ≤ out.length) (htext : text.length = b - a) : (overwrite out a b text).length = out.length := by
  simp only [overwrite, List.length_append, List.length_take, List.length_drop, htext]
  omega

theorem getElem?_overwrite (hab : a ≤ b) (hb : b ≤ out.length) (htext : text.length = b - a) (hi : i < a ∨ b ≤ i) :
    (overwrite out a b text)[i]? = out[i]? := by
  have hleft : (out.take a).length = a := by rw [List.length_take]; omega
  rw [overwrite, List.append_assoc]
  rcases hi with hi | hi
  · rw [List.getElem?_append_left (by omega), List.getElem?_take_of_lt hi]
  · rw [List.getElem?_append_right (by omega), hleft, List.getElem?_append_right (by omega), htext, List.getElem?_drop]
    congr 1
    omega

theorem forall₂_refl (hrefl : ∀ x, R x x) (l : List α) : List.Forall₂ R l l := List.forall₂_same.mpr fun x _ => hrefl x

theorem forall₂_append {l₁ l₂ m₁ m₂ : List α} (h : List.Forall₂ R l₁ l₂) (h' : List.Forall₂ R m₁ m₂) :
    List.Forall₂ R (l₁ ++ m₁) (l₂ ++ m₂) := by
  induction h with
  | nil => exact h'
  | cons h _ ih => exact .cons h ih

theorem forall₂_trans (htrans : ∀ {x y z}, R x y → R y z → R x z) {l m n : List α} (h : List.Forall₂ R l m) (h' : List.Forall₂ R m n) :
    List.Forall₂ R l n := by
  induction h generalizing n with
  | nil => exact h'
  | cons hxy _ ih =>
    cases h' with
    | cons hyz hrest => exact .cons (htrans hxy hyz) (ih hrest)

/-- What is kept of the part is kept of the whole. -/
theorem forall₂_overwrite (hrefl : ∀ x, R x x) (hab : a ≤ b) (h : List.Forall₂ R ((out.drop a).take (b - a)) text) :
    List.Forall₂ R out (overwrite out a b text) := by
  have hsplit : out = out.take a ++ (out.drop a).take (b - a) ++ out.drop b := by
    have hrest : (out.drop a).drop (b - a) = out.drop b := by rw [List.drop_drop, Nat.add_sub_cancel' hab]
    rw [List.append_assoc, ← hrest, List.take_append_drop, List.take_append_drop]
  have hwhole := forall₂_append (forall₂_append (forall₂_refl hrefl (out.take a)) h) (forall₂_refl hrefl (out.drop b))
  rwa [← hsplit] at hwhole

end Overwrite

end Lib
