import Mathlib.Data.List.Infix
import Mathlib.Tactic.Common

/-!
# CodeSage.Lib.Split

Cutting a list at the first or at the last occurrence of a separator. Both cuts give back the list they
were made from, and are determined by where the separator does not stand. A separator of several letters
has only its last tail here.
-/

namespace Lib

variable {α : Type} [DecidableEq α]

/-- What stands before and after the first `sep`. -/
def splitOnce (sep : α) : List α → Option (List α × List α)
  | [] => none
  | x :: xs =>
    if x = sep then some ([], xs)
    else (splitOnce sep xs).map fun r => (x :: r.1, r.2)

/-- What stands before and after the last `sep`. -/
def rsplitOnce (sep : α) (xs : List α) : Option (List α × List α) :=
  (splitOnce sep xs.reverse).map fun r => (r.2.reverse, r.1.reverse)

/-- What stands after the last occurrence of the word `sep`. -/
def afterLast (sep xs : List α) : Option (List α) :=
  (xs.tails.reverse.find? (sep.isPrefixOf ·)).map (·.drop sep.length)

variable {sep : α} {a b xs : List α}

theorem splitOnce_append (h : sep ∉ a) (b : List α) : splitOnce sep (a ++ sep :: b) = some (a, b) := by
  induction a with
  | nil => simp [splitOnce]
  | cons x a ih =>
    rw [List.mem_cons, not_or] at h
    rw [List.cons_append, splitOnce, if_neg (Ne.symm h.1), ih h.2]
    rfl

theorem splitOnce_eq_none (h : sep ∉ xs) : splitOnce sep xs = none := by
  induction xs with
  | nil => rfl
  | cons x xs ih =>
    rw [List.mem_cons, not_or] at h
    rw [splitOnce, if_neg (Ne.symm h.1), ih h.2]
    rfl

theorem splitOnce_eq_some (h : splitOnce sep xs = some (a, b)) : xs = a ++ sep :: b ∧ sep ∉ a := by
  by_cases hmem : sep ∈ xs
  · obtain ⟨a', b', rfl, hnot⟩ := List.eq_append_cons_of_mem hmem
    rw [splitOnce_append hnot] at h
    cases h
    exact ⟨rfl, hnot⟩
  · rw [splitOnce_eq_none hmem] at h
    cases h

theorem rsplitOnce_append (a : List α) (h : sep ∉ b) : rsplitOnce sep (a ++ sep :: b) = some (a, b) := by
  have hrev : (a ++ sep :: b).reverse = b.reverse ++ sep :: a.reverse := by simp
  rw [rsplitOnce, hrev, splitOnce_append (by simpa using h)]
  simp

theorem rsplitOnce_eq_none (h : sep ∉ xs) : rsplitOnce sep xs = none := by
  rw [rsplitOnce, splitOnce_eq_none (by simpa using h)]
  rfl

theorem rsplitOnce_eq_some (h : rsplitOnce sep xs = some (a, b)) : xs = a ++ sep :: b ∧ sep ∉ b := by
  obtain ⟨⟨b', a'⟩, hr, heq⟩ := Option.map_eq_some_iff.mp h
  obtain ⟨hxs, hnot⟩ := splitOnce_eq_some hr
  cases heq
  refine ⟨?_, by simpa using hnot⟩
  have := congrArg List.reverse hxs
  simpa using this

theorem afterLast_cons {sep b : List α} (x : α) (h : afterLast sep xs = some b) : afterLast sep (x :: xs) = some b := by
  obtain ⟨tail, hfind, rfl⟩ := Option.map_eq_some_iff.mp h
  rw [afterLast, List.tails_cons, List.reverse_cons, List.find?_append, hfind]
  rfl

/-- A word whose first letter stands neither in its rest nor after it occurs last there. -/
theorem afterLast_append {x : α} {sep b : List α} (hsep : x ∉ sep) (hb : x ∉ b) (a : List α) :
    afterLast (x :: sep) (a ++ (x :: sep ++ b)) = some b := by
  induction a with
  | nil =>
    have hnone : (sep ++ b).tails.reverse.find? ((x :: sep).isPrefixOf ·) = none := by
      refine List.find?_eq_none.mpr fun tail htail hprefix => ?_
      have hsuffix : tail <:+ sep ++ b := (List.mem_tails _ _).mp (List.mem_reverse.mp htail)
      have hmem : x ∈ sep ++ b :=
        hsuffix.subset ((List.isPrefixOf_iff_prefix.mp hprefix).subset List.mem_cons_self)
      exact (List.mem_append.mp hmem).elim hsep hb
    rw [List.nil_append, afterLast, List.cons_append, List.tails_cons, List.reverse_cons, List.find?_append, hnone]
    simp
  | cons c a ih => exact afterLast_cons c ih

end Lib
