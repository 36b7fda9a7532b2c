import Mathlib.Data.Fintype.Card
import Mathlib.Data.Fintype.EquivFin
import Mathlib.Data.List.FinRange
import Mathlib.Data.List.Dedup
import Mathlib.Tactic.Common

/-!
# CodeSage.Lib.Banding

Candidate search by bands. Positions are cut into `bands` runs of `rows`; when fewer than `bands` of them
fail a test, some run passes it whole. Rows of a table are found by the keys they are filed under.
-/

namespace Lib

section Bands

variable {bands rows : Nat}

theorem band_lt (b : Fin bands) (r : Fin rows) : b.val * rows + r.val < bands * rows := by
  calc b.val * rows + r.val < b.val * rows + rows := Nat.add_lt_add_left r.isLt _
    _ = (b.val + 1) * rows := (Nat.succ_mul _ _).symm
    _ ≤ bands * rows := Nat.mul_le_mul_right _ b.isLt

/-- The position of row `r` in band `b`. -/
def bandPos (b : Fin bands) (r : Fin rows) : Fin (bands * rows) := ⟨b.val * rows + r.val, band_lt b r⟩

theorem bandPos_band {b b' : Fin bands} {r r' : Fin rows} (h : bandPos b r = bandPos b' r') : b = b' := by
  have hval : b.val * rows + r.val = b'.val * rows + r'.val := congrArg Fin.val h
  have hpos : 0 < rows := Nat.lt_of_le_of_lt (Nat.zero_le _) r.isLt
  have hdiv : ∀ (b : Fin bands) (r : Fin rows), (b.val * rows + r.val) / rows = b.val := by
    intro b r
    rw [Nat.add_comm, Nat.add_mul_div_right _ _ hpos, Nat.div_eq_of_lt r.isLt, Nat.zero_add]
  apply Fin.ext
  rw [← hdiv b r, hval, hdiv b' r']

/-- Fewer failures than bands leave a band without one. -/
theorem exists_band (p : Fin (bands * rows) → Bool)
    (h : (List.finRange (bands * rows)).countP (fun i => !p i) < bands) :
    ∃ b : Fin bands, ∀ r : Fin rows, p (bandPos b r) = true := by
  by_contra hnone
  simp only [not_exists, not_forall, Bool.not_eq_true] at hnone
  choose r hr using hnone
  have hinj : Function.Injective fun b => bandPos b (r b) := fun b b' hbb => bandPos_band hbb
  have hsub : ∀ x ∈ (List.finRange bands).map (fun b => bandPos b (r b)),
      x ∈ (List.finRange (bands * rows)).filter (fun i => !p i) := by
    intro x hx
    obtain ⟨b, -, rfl⟩ := List.mem_map.mp hx
    simp [hr b]
  have hnodup := (List.nodup_finRange bands).map hinj
  have hle := (hnodup.subperm hsub).length_le
  rw [List.length_map, List.length_finRange, ← List.countP_eq_length_filter] at hle
  omega

theorem countP_not_add {α : Type} (p : α → Bool) (l : List α) :
    l.countP p + l.countP (fun a => !p a) = l.length := by
  have := List.length_eq_countP_add_countP (l := l) p
  simpa [Bool.not_eq_true] using this.symm

end Bands

section Filing

variable {κ ρ : Type} [DecidableEq κ]

/-- The numbers of the rows filed under each key. -/
abbrev Buckets (κ : Type) := κ → List Nat

def Buckets.push (buckets : Buckets κ) (key : κ) (i : Nat) : Buckets κ :=
  fun k => if k = key then buckets k ++ [i] else buckets k

/-- Row `i` goes under each of its keys. -/
def Buckets.file (keys : ρ → List κ) (buckets : Buckets κ) (row : ρ × Nat) : Buckets κ :=
  (keys row.1).foldl (fun buckets key => buckets.push key row.2) buckets

def fileRows (keys : ρ → List κ) (rows : List ρ) : Buckets κ :=
  rows.zipIdx.foldl (Buckets.file keys) fun _ => []

theorem mem_foldl_push {keys : List κ} {i j : Nat} {k : κ} : ∀ {buckets : Buckets κ},
    j ∈ keys.foldl (fun buckets key => buckets.push key i) buckets k ↔ j ∈ buckets k ∨ j = i ∧ k ∈ keys := by
  induction keys with
  | nil => simp
  | cons key keys ih =>
    intro buckets
    rw [List.foldl_cons, ih, Buckets.push]
    by_cases hk : k = key
    · subst hk
      rw [if_pos rfl, List.mem_append, List.mem_singleton]
      simp only [List.mem_cons_self, and_true]
      tauto
    · rw [if_neg hk]
      simp only [List.mem_cons, hk, false_or]

theorem mem_foldl_file {keys : ρ → List κ} {rows : List (ρ × Nat)} {j : Nat} {k : κ} :
    ∀ {buckets : Buckets κ}, j ∈ rows.foldl (Buckets.file keys) buckets k ↔
      j ∈ buckets k ∨ ∃ row, (row, j) ∈ rows ∧ k ∈ keys row := by
  induction rows with
  | nil => simp
  | cons head rows ih =>
    intro buckets
    rw [List.foldl_cons, ih, Buckets.file, mem_foldl_push]
    constructor
    · rintro ((h | ⟨rfl, h⟩) | ⟨row, hrow, h⟩)
      · exact .inl h
      · exact .inr ⟨head.1, List.mem_cons_self, h⟩
      · exact .inr ⟨row, List.mem_cons_of_mem _ hrow, h⟩
    · rintro (h | ⟨row, hrow, h⟩)
      · exact .inl (.inl h)
      · rcases List.mem_cons.mp hrow with rfl | hrow
        · exact .inl (.inr ⟨rfl, h⟩)
        · exact .inr ⟨row, hrow, h⟩

/-- A row is found under exactly its keys. -/
theorem mem_fileRows {keys : ρ → List κ} {rows : List ρ} {j : Nat} {k : κ} :
    j ∈ fileRows keys rows k ↔ ∃ row, rows[j]? = some row ∧ k ∈ keys row := by
  rw [fileRows, mem_foldl_file]
  simp only [List.not_mem_nil, false_or, List.mem_zipIdx_iff_getElem?]

end Filing

end Lib
