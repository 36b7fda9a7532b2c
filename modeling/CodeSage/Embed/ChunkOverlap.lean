import CodeSage.Embed.ChunkSplit

/-!
# CodeSage.Embed.ChunkOverlap

`apply_overlap` in terms of characters: at the offset of a character, `retreat_by_chars` and
`find_line_boundary_after` return the offset of a character (`retreatByChars_offset`,
`findLineBoundaryAfter_offset`), so that a new start is an index between the old one and `overlap`
characters before it.
-/

namespace CodeSage
namespace Embed

open Lib

variable {text : Text}

section Offsets

theorem offset_succ {k : Nat} {c : Char} (hc : text[k]? = some c) :
    Utf8.offset text (k + 1) = Utf8.offset text k + c.utf8Size := by
  rw [Utf8.offset, Utf8.offset, List.take_add_one, hc, Utf8.size_append]
  simp

theorem offset_eq_zero {k : Nat} (hk : k ≤ text.length) : Utf8.offset text k = 0 ↔ k = 0 := by
  constructor
  · intro h
    by_contra hne
    have : Utf8.offset text 0 < Utf8.offset text k := Utf8.offset_lt (Nat.pos_of_ne_zero hne) hk
    omega
  · rintro rfl
    rfl

/-- Back over the bytes of one character. -/
theorem retreat_char {k : Nat} {c : Char} (hc : text[k]? = some c) (n : Nat) :
    ∀ i < c.utf8Size, retreat (Utf8.bytes text) (Utf8.offset text k + (i + 1)) (n + 1) =
      retreat (Utf8.bytes text) (Utf8.offset text k) n := by
  have hsplit : text = text.take k ++ c :: text.drop (k + 1) := by
    obtain ⟨hk, rfl⟩ := List.getElem?_eq_some_iff.mp hc
    rw [← List.drop_eq_getElem_cons hk, List.take_append_drop]
  have hbyte : ∀ i < c.utf8Size, ∃ x, (Utf8.bytes text)[Utf8.offset text k + i]? = some x ∧
      Utf8.isContinuation x = decide (i ≠ 0) := by
    intro i hi
    have := Utf8.bytes_char (text.take k) c (text.drop (k + 1)) hi
    rwa [← hsplit] at this
  intro i
  induction i with
  | zero =>
    intro hi
    obtain ⟨x, hx, hcont⟩ := hbyte 0 hi
    rw [Nat.add_zero] at hx
    rw [← Nat.add_assoc, retreat, Nat.add_zero, hx]
    simp [hcont]
  | succ i ih =>
    intro hi
    obtain ⟨x, hx, hcont⟩ := hbyte (i + 1) hi
    rw [← Nat.add_assoc, retreat, hx]
    simp only [hcont, Option.bind_eq_bind, Option.bind_some]
    exact ih (by omega)

theorem retreat_zero (bytes : List UInt8) (p : Nat) : retreat bytes p 0 = some p := by
  cases p <;> rfl

theorem retreat_offset (k : Nat) (hk : k ≤ text.length) (n : Nat) :
    retreat (Utf8.bytes text) (Utf8.offset text k) n = some (Utf8.offset text (k - n)) := by
  induction k generalizing n with
  | zero => simp [retreat]
  | succ k ih =>
    cases n with
    | zero => exact retreat_zero _ _
    | succ n =>
      have hc : text[k]? = some (text[k]) := List.getElem?_eq_getElem (by omega)
      have hpos := (text[k]).utf8Size_pos
      have hlast := retreat_char hc n ((text[k]).utf8Size - 1) (by omega)
      rw [Nat.sub_add_cancel hpos] at hlast
      rw [offset_succ hc, hlast, ih (by omega) n, Nat.add_sub_add_right]

theorem retreatByChars_offset {k : Nat} (hk : k ≤ text.length) (n : Nat) :
    retreatByChars text (Utf8.offset text k) n = some (Utf8.offset text (k - n)) := by
  rw [retreatByChars, Nat.min_eq_left (Utf8.offset_le_size k)]
  exact retreat_offset k hk n

theorem snapDown_of_boundary {p : Nat} (h : Utf8.isBoundary text p = true) : snapDown text p = p := by
  cases p with
  | zero => rfl
  | succ p => rw [snapDown, if_pos h]

theorem snapToCharBoundary_offset (k : Nat) :
    snapToCharBoundary text (Utf8.offset text k) = Utf8.offset text k := by
  rw [snapToCharBoundary]
  split
  · rename_i hle
    exact Nat.le_antisymm hle (Utf8.offset_le_size k)
  · exact snapDown_of_boundary (Utf8.isBoundary_offset k)

theorem findCharBoundary_offset (k : Nat) :
    findCharBoundary text (Utf8.offset text k) = Utf8.offset text k := by
  rw [findCharBoundary]
  split
  · rename_i hle
    exact Nat.le_antisymm hle (Utf8.offset_le_size k)
  · cases Utf8.size text - Utf8.offset text k with
    | zero => rfl
    | succ fuel => rw [snapUp, if_neg (by simp [Utf8.isBoundary_offset k])]

end Offsets

section Lines

/-- `find_line_boundary_after` on the numbers of characters. -/
def lineBoundary (text : Text) (k : Nat) : Nat :=
  if k = 0 then 0
  else
    match (text.drop k).findIdx? (· = '\n') with
    | some j => if k + j + 1 < text.length then k + j + 1 else k
    | none => k

theorem findLineBoundaryAfter_offset {k : Nat} (hk : k ≤ text.length) :
    findLineBoundaryAfter text (Utf8.offset text k) = some (Utf8.offset text (lineBoundary text k)) := by
  rw [findLineBoundaryAfter, lineBoundary]
  by_cases h0 : k = 0
  · rw [if_pos ((offset_eq_zero hk).mpr h0), if_pos h0]
    rfl
  rw [if_neg (fun h => h0 ((offset_eq_zero hk).mp h)), if_neg h0]
  simp only [snapToCharBoundary_offset, Utf8.sliceFrom_offset, Option.bind_eq_bind, Option.bind_some]
  cases hf : (text.drop k).findIdx? (· = '\n') with
  | none => rfl
  | some j =>
    obtain ⟨hj, hnl, -⟩ := List.findIdx?_eq_some_iff_getElem.mp hf
    have hget : text[k + j]? = some '\n' := by
      rw [List.getElem_drop] at hnl
      rw [List.length_drop] at hj
      rw [List.getElem?_eq_getElem (by omega)]
      exact congrArg some (by simpa using hnl)
    have hoff : Utf8.offset text k + Utf8.offset (text.drop k) j = Utf8.offset text (k + j) := by
      rw [Utf8.offset_add (Nat.le_add_right k j), Utf8.offset, Utf8.offset, List.drop_take,
        Nat.add_sub_cancel_left]
    have hnext : Utf8.offset text k + Utf8.offset (text.drop k) j + 1 =
        Utf8.offset text (k + j + 1) := by
      rw [hoff, offset_succ hget]
      rfl
    simp only [hnext]
    rw [← Utf8.offset_length text]
    by_cases hlt : k + j + 1 < text.length
    · rw [if_pos ((Utf8.offset_lt_iff (Nat.le_refl _)).mpr hlt), if_pos hlt]
      rfl
    · rw [if_neg (fun h => hlt ((Utf8.offset_lt_iff (Nat.le_refl _)).mp h)), if_neg hlt]
      rfl

theorem le_lineBoundary (k : Nat) : k ≤ lineBoundary text k := by
  unfold lineBoundary
  split
  · omega
  · split
    · split <;> omega
    · exact Nat.le_refl k

theorem lineBoundary_le {k : Nat} (hk : k ≤ text.length) : lineBoundary text k ≤ text.length := by
  unfold lineBoundary
  split
  · exact Nat.zero_le _
  · split
    · split <;> omega
    · exact hk

/-- Positions further on have line boundaries further on. -/
theorem lineBoundary_mono {i j : Nat} (hij : i ≤ j) : lineBoundary text i ≤ lineBoundary text j := by
  have hj : j ≤ lineBoundary text j := le_lineBoundary j
  by_cases h0 : i = 0
  · subst h0
    simp [lineBoundary]
  cases hf : (text.drop i).findIdx? (· = '\n') with
  | none =>
    simp only [lineBoundary, if_neg h0, hf] at hj ⊢
    omega
  | some a =>
    by_cases hlt : i + a + 1 < text.length
    · by_cases hbefore : i + a < j
      · rw [lineBoundary, if_neg h0, hf]
        simp only [if_pos hlt]
        omega
      · -- the same newline
        have hsame : (text.drop j).findIdx? (· = '\n') = some (i + a - j) := by
          obtain ⟨ha, hnl, hfirst⟩ := List.findIdx?_eq_some_iff_getElem.mp hf
          refine List.findIdx?_eq_some_iff_getElem.mpr ⟨by rw [List.length_drop]; omega, ?_, ?_⟩
          · rw [List.getElem_drop] at hnl ⊢
            have : j + (i + a - j) = i + a := by omega
            simpa only [this] using hnl
          · intro b hb
            have := hfirst (j - i + b) (by omega)
            rw [List.getElem_drop] at this ⊢
            have hidx : i + (j - i + b) = j + b := by omega
            simpa only [hidx] using this
        have hj0 : j ≠ 0 := by omega
        have hend : j + (i + a - j) + 1 = i + a + 1 := by omega
        simp only [lineBoundary, if_neg h0, if_neg hj0, hf, hsame, hend, if_pos hlt]
        exact Nat.le_refl _
    · simp only [lineBoundary, if_neg h0, hf, if_neg hlt] at hj ⊢
      omega

end Lines

section Overlap

/-- The segments of consecutive pieces from the character number `i` on, with starts moved by `f`,
which sees the numbers of the first character and of the one after the last. -/
def moved (text : Text) (f : Nat → Nat → Nat) : Nat → List Text → List Segment
  | _, [] => []
  | i, b :: bs =>
    ⟨Utf8.offset text (f i (i + b.length)), Utf8.offset text (i + b.length)⟩ ::
      moved text f (i + b.length) bs

/-- Where a segment starts after `apply_overlap`. -/
def newStart (text : Text) (overlap chunkSize i stop : Nat) : Nat :=
  min i (max (lineBoundary text (i - overlap)) (stop - chunkSize))

/-- A way to move starts that keeps what `apply_overlap` promises. -/
structure Moves (overlap chunkSize : Nat) (f : Nat → Nat → Nat) : Prop where
  earlier : ∀ i stop, f i stop ≤ i
  near : ∀ i stop, i - overlap ≤ f i stop
  fit : ∀ i stop, stop - i ≤ chunkSize → stop - f i stop ≤ chunkSize
  mono : ∀ i stop i' stop', i ≤ i' → stop ≤ stop' → f i stop ≤ f i' stop'

theorem moves_newStart (text : Text) (overlap chunkSize : Nat) :
    Moves overlap chunkSize (newStart text overlap chunkSize) where
  earlier i stop := Nat.min_le_left ..
  near i stop := by
    have : i - overlap ≤ lineBoundary text (i - overlap) := le_lineBoundary _
    unfold newStart
    omega
  fit i stop h := by
    unfold newStart
    omega
  mono i stop i' stop' hi hstop := by
    have : lineBoundary text (i - overlap) ≤ lineBoundary text (i' - overlap) :=
      lineBoundary_mono (by omega)
    unfold newStart
    omega

theorem moves_id (overlap chunkSize : Nat) : Moves overlap chunkSize fun i _ => i where
  earlier i _ := Nat.le_refl i
  near i _ := Nat.sub_le i overlap
  fit _ _ h := h
  mono _ _ _ _ hi _ := hi

/-- Unmoved, the segments are the offsets of the pieces. -/
theorem moved_id (bs : List Text) {i : Nat} (htext : text.drop i = bs.flatten) :
    moved text (fun i _ => i) i bs = spans (Utf8.offset text i) bs := by
  induction bs generalizing i with
  | nil => rfl
  | cons b bs ih =>
    have hstop : Utf8.offset text (i + b.length) = Utf8.offset text i + Utf8.size b := by
      rw [Utf8.offset_add (Nat.le_add_right i b.length), List.drop_take, Nat.add_sub_cancel_left, htext]
      simp
    have hrest : text.drop (i + b.length) = bs.flatten := by
      rw [← List.drop_drop, htext]
      simp
    rw [moved, spans, hstop, ih hrest, hstop]

theorem overlapFrom_moved (overlap chunkSize : Nat) (bs : List Text) {i : Nat} (hi : i ≤ text.length)
    (htext : text.drop i = bs.flatten) :
    overlapFrom text overlap chunkSize (Utf8.offset text i) (moved text (fun i _ => i) i bs) =
      some (moved text (newStart text overlap chunkSize) i bs) := by
  induction bs generalizing i with
  | nil => rfl
  | cons b bs ih =>
    have hrest : text.drop (i + b.length) = bs.flatten := by
      rw [← List.drop_drop, htext]
      simp
    have hlen : i + b.length ≤ text.length := by
      have := congrArg List.length htext
      rw [List.length_drop, List.flatten_cons, List.length_append] at this
      omega
    have hback : i - overlap ≤ text.length := by omega
    rw [moved, overlapFrom, retreatByChars_offset hi]
    simp only [Option.bind_eq_bind, Option.bind_some, findLineBoundaryAfter_offset hback,
      retreatByChars_offset hlen, ih hlen hrest, Utf8.offset_max]
    rw [moved, newStart]
    by_cases hlt : max (lineBoundary text (i - overlap)) (i + b.length - chunkSize) < i
    · rw [if_pos ((Utf8.offset_lt_iff hi).mpr hlt), Nat.min_eq_right (Nat.le_of_lt hlt)]
      rfl
    · rw [if_neg (fun h => hlt ((Utf8.offset_lt_iff hi).mp h)),
        Nat.min_eq_left (Nat.le_of_not_lt hlt)]
      rfl

/-- `apply_overlap` on the segments of consecutive pieces. -/
theorem applyOverlap_moved (overlap chunkSize : Nat) {bs : List Text} (htext : bs.flatten = text) :
    ∃ f, Moves overlap chunkSize f ∧
      applyOverlap (spans 0 bs) text overlap chunkSize = some (moved text f 0 bs) := by
  have hid : moved text (fun i _ => i) 0 bs = spans (Utf8.offset text 0) bs :=
    moved_id bs (by simpa using htext.symm)
  rw [Utf8.offset_zero] at hid
  match bs, htext, hid with
  | [], _, _ => exact ⟨_, moves_id overlap chunkSize, rfl⟩
  | [b], _, hid =>
    refine ⟨_, moves_id overlap chunkSize, ?_⟩
    rw [hid]
    rfl
  | b :: b' :: bs, htext, hid =>
    by_cases h0 : overlap = 0
    · refine ⟨_, moves_id overlap chunkSize, ?_⟩
      rw [hid, spans, spans, applyOverlap, if_pos h0]
    · refine ⟨_, moves_newStart text overlap chunkSize, ?_⟩
      have hlen : 0 + b.length ≤ text.length := by rw [← htext]; simp
      have hrest : text.drop (0 + b.length) = (b' :: bs).flatten := by rw [← htext]; simp
      have hrun := overlapFrom_moved overlap chunkSize (b' :: bs) hlen hrest
      have hfirst : newStart text overlap chunkSize 0 (0 + b.length) = 0 := Nat.zero_min ..
      rw [← hid]
      show (if overlap = 0 then some _ else (overlapFrom text overlap chunkSize
        (Utf8.offset text (0 + b.length)) (moved text (fun i _ => i) (0 + b.length) (b' :: bs))).map _) = _
      rw [if_neg h0, hrun, Option.map_some, moved.eq_2 text (newStart text overlap chunkSize) 0 b,
        hfirst]

end Overlap

end Embed
end CodeSage
