import Mathlib.Data.List.Infix
import Mathlib.Tactic.Common

/-!
# CodeSage.Lib.Adjacent

Neighbours in a list (`l.zip l.tail`), and in one whose elements are numbered upwards.
-/

namespace Lib
namespace Adjacent

variable {α : Type}

theorem mem_zip_tail_iff_infix {l : List α} {a b : α} : (a, b) ∈ l.zip l.tail ↔ [a, b] <:+: l := by
  induction l with
  | nil => simp
  | cons x l ih =>
    cases l with
    | nil =>
      simp only [List.tail_cons, List.zip_nil_right, List.not_mem_nil, false_iff]
      intro h
      have := h.length_le
      simp at this
    | cons y l =>
      rw [List.tail_cons, List.zip_cons_cons, List.mem_cons, List.infix_cons_iff, ← ih, List.tail_cons]
      refine or_congr_left ?_
      constructor
      · intro h
        cases h
        exact ⟨l, rfl⟩
      · rintro ⟨t, h⟩
        cases h
        rfl

/-- Neighbours in a numbered list: no element has a number between theirs. -/
theorem mem_zip_tail_iff_between {key : α → Nat} {l : List α} (hsorted : l.Pairwise fun a b => key a < key b) {a b : α} :
    (a, b) ∈ l.zip l.tail ↔ a ∈ l ∧ b ∈ l ∧ key a < key b ∧ ∀ c ∈ l, key a < key c → key b ≤ key c := by
  induction l with
  | nil => simp
  | cons x l ih =>
    cases l with
    | nil =>
      simp only [List.tail_cons, List.zip_nil_right, List.not_mem_nil, List.mem_singleton, false_iff, not_and]
      rintro rfl rfl h
      omega
    | cons y l =>
      obtain ⟨hx, hrest⟩ := List.pairwise_cons.mp hsorted
      rw [List.tail_cons, List.zip_cons_cons, List.mem_cons]
      have ih := ih hrest
      rw [List.tail_cons] at ih
      have hxy : key x < key y := hx y List.mem_cons_self
      have hy : ∀ c ∈ y :: l, key y ≤ key c := by
        intro c hc
        rcases List.mem_cons.mp hc with rfl | hc
        · exact Nat.le_refl _
        · exact ((List.pairwise_cons.mp hrest).1 c hc).le
      rw [ih]
      constructor
      · rintro (h | ⟨ha, hb, hlt, hnone⟩)
        · cases h
          refine ⟨List.mem_cons_self, List.mem_cons_of_mem _ List.mem_cons_self, hxy, fun c hc hlt => ?_⟩
          rcases List.mem_cons.mp hc with rfl | hc
          · omega
          · exact hy c hc
        · refine ⟨List.mem_cons_of_mem _ ha, List.mem_cons_of_mem _ hb, hlt, fun c hc hac => ?_⟩
          rcases List.mem_cons.mp hc with rfl | hc
          · have := hx a ha
            omega
          · exact hnone c hc hac
      · rintro ⟨ha, hb, hlt, hnone⟩
        have hb' : b ∈ y :: l := by
          rcases List.mem_cons.mp hb with rfl | hb
          · rcases List.mem_cons.mp ha with rfl | ha
            · omega
            · have := hx a ha
              omega
          · exact hb
        rcases List.mem_cons.mp ha with rfl | ha
        · left
          have hle := hnone y (List.mem_cons_of_mem _ List.mem_cons_self) hxy
          rcases List.mem_cons.mp hb' with rfl | hb'
          · rfl
          · have := (List.pairwise_cons.mp hrest).1 b hb'
            omega
        · exact .inr ⟨ha, hb', hlt, fun c hc => hnone c (List.mem_cons_of_mem _ hc)⟩

end Adjacent
end Lib
