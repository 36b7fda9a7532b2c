import Mathlib.Data.List.Basic
import Mathlib.Data.List.Induction
import Mathlib.Tactic.Common

/-!
# CodeSage.Lib.Outline

An outline told by indentation alone: entries are read in order, some of them open a block, and an entry
closes every open block that is indented deeper than it.

* `openStep`, `openAfter` — the indents of the open blocks, innermost first.
* `mem_openAfter`         — which blocks are open, said of the entries read.
-/

namespace Lib
namespace Outline

variable {α : Type} (indent : α → Nat) (opens : α → Bool)

def openStep (blocks : List Nat) (x : α) : List Nat :=
  let rest := blocks.dropWhile (indent x < ·)
  if opens x then indent x :: rest else rest

def openAfter (xs : List α) : List Nat := xs.foldl (openStep indent opens) []

/-- What is left of a stack after the blocks deeper than `d` are closed. -/
theorem mem_dropWhile {blocks : List Nat} (hsorted : blocks.Pairwise (· ≥ ·)) (d e : Nat) :
    e ∈ blocks.dropWhile (d < ·) ↔ e ∈ blocks ∧ e ≤ d := by
  induction blocks with
  | nil => simp
  | cons b blocks ih =>
    obtain ⟨hle, hsorted⟩ := List.pairwise_cons.mp hsorted
    by_cases hb : d < b
    · rw [List.dropWhile_cons_of_pos (by simpa using hb), ih hsorted, List.mem_cons]
      constructor
      · intro ⟨hmem, hed⟩
        exact ⟨Or.inr hmem, hed⟩
      · rintro ⟨rfl | hmem, hed⟩
        · omega
        · exact ⟨hmem, hed⟩
    · rw [List.dropWhile_cons_of_neg (by simpa using hb)]
      refine ⟨fun hmem => ⟨hmem, ?_⟩, And.left⟩
      rcases List.mem_cons.mp hmem with rfl | hmem
      · omega
      · have := hle e hmem
        omega

theorem openAfter_concat (xs : List α) (x : α) :
    openAfter indent opens (xs ++ [x]) = openStep indent opens (openAfter indent opens xs) x := by
  simp [openAfter]

theorem openStep_sorted {blocks : List Nat} (hsorted : blocks.Pairwise (· ≥ ·)) (x : α) :
    (openStep indent opens blocks x).Pairwise (· ≥ ·) := by
  have hrest : (blocks.dropWhile (indent x < ·)).Pairwise (· ≥ ·) :=
    hsorted.sublist (List.dropWhile_sublist _)
  rw [openStep]
  split
  · refine List.pairwise_cons.mpr ⟨fun e he => ?_, hrest⟩
    exact ((mem_dropWhile hsorted _ e).mp he).2
  · exact hrest

theorem openAfter_sorted (xs : List α) : (openAfter indent opens xs).Pairwise (· ≥ ·) := by
  induction xs using List.reverseRecOn with
  | nil => exact List.Pairwise.nil
  | append_singleton xs x ih =>
    rw [openAfter_concat]
    exact openStep_sorted indent opens ih x

theorem mem_openStep {blocks : List Nat} (hsorted : blocks.Pairwise (· ≥ ·)) (x : α) (e : Nat) :
    e ∈ openStep indent opens blocks x ↔ (opens x = true ∧ indent x = e) ∨ (e ∈ blocks ∧ e ≤ indent x) := by
  rw [openStep, ← mem_dropWhile hsorted]
  split
  · rename_i hopens
    rw [List.mem_cons]
    constructor
    · rintro (rfl | hmem)
      · exact Or.inl ⟨hopens, rfl⟩
      · exact Or.inr hmem
    · rintro (⟨-, rfl⟩ | hmem)
      · exact Or.inl rfl
      · exact Or.inr hmem
  · rename_i hopens
    exact ⟨Or.inr, fun h => h.elim (fun h => absurd h.1 hopens) id⟩

/-- A block is open when its heading was read and nothing shallower since. -/
theorem mem_openAfter (xs : List α) (e : Nat) :
    e ∈ openAfter indent opens xs ↔
      ∃ pre s mid, xs = pre ++ s :: mid ∧ opens s = true ∧ indent s = e ∧ ∀ x ∈ mid, e ≤ indent x := by
  induction xs using List.reverseRecOn with
  | nil =>
    refine ⟨fun h => by simp [openAfter] at h, ?_⟩
    rintro ⟨pre, s, mid, hsplit, -⟩
    simp at hsplit
  | append_singleton xs y ih =>
    rw [openAfter_concat, mem_openStep indent opens (openAfter_sorted indent opens xs), ih]
    constructor
    · rintro (⟨hopens, hindent⟩ | ⟨⟨pre, s, mid, rfl, hopens, hindent, hmid⟩, hle⟩)
      · exact ⟨xs, y, [], rfl, hopens, hindent, by simp⟩
      · refine ⟨pre, s, mid ++ [y], by simp, hopens, hindent, fun x hx => ?_⟩
        rcases List.mem_append.mp hx with hx | hx
        · exact hmid x hx
        · rw [List.mem_singleton.mp hx]
          exact hle
    · rintro ⟨pre, s, mid, hsplit, hopens, hindent, hmid⟩
      rcases List.eq_nil_or_concat' mid with rfl | ⟨mid, z, rfl⟩
      · obtain ⟨-, rfl⟩ := List.append_singleton_inj.mp hsplit
        exact Or.inl ⟨hopens, hindent⟩
      · rw [← List.cons_append, ← List.append_assoc] at hsplit
        obtain ⟨rfl, rfl⟩ := List.append_singleton_inj.mp hsplit
        exact Or.inr ⟨⟨pre, s, mid, rfl, hopens, hindent, fun x hx => hmid x (List.mem_append_left _ hx)⟩,
          hmid y (List.mem_append_right _ List.mem_cons_self)⟩

/-- An entry at depth `d` stands in an open block. -/
theorem enclosed_iff (xs : List α) (d : Nat) :
    (openAfter indent opens xs).dropWhile (d < ·) ≠ [] ↔
      ∃ pre s mid, xs = pre ++ s :: mid ∧ opens s = true ∧ indent s ≤ d ∧ ∀ x ∈ mid, indent s ≤ indent x := by
  constructor
  · intro hne
    obtain ⟨e, he⟩ := List.exists_mem_of_ne_nil _ hne
    obtain ⟨hmem, hle⟩ := (mem_dropWhile (openAfter_sorted indent opens xs) d e).mp he
    obtain ⟨pre, s, mid, hsplit, hopens, rfl, hmid⟩ := (mem_openAfter indent opens xs e).mp hmem
    exact ⟨pre, s, mid, hsplit, hopens, hle, hmid⟩
  · intro ⟨pre, s, mid, hsplit, hopens, hle, hmid⟩
    refine List.ne_nil_of_mem ((mem_dropWhile (openAfter_sorted indent opens xs) d (indent s)).mpr ⟨?_, hle⟩)
    exact (mem_openAfter indent opens xs _).mpr ⟨pre, s, mid, hsplit, hopens, rfl, hmid⟩

end Outline
end Lib
