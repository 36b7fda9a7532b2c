import CodeSage.Lib.Text
import Mathlib.Data.List.Infix

/-!
# CodeSage.Lib.Segments

Paths as texts cut at `/`, and the textual resolution of `.` and `..` (no file system is asked).

* `walk parts segs` — go from the directory `parts` along the segments; `none` above the root.
* `normalize`       — the path from the root, spelled without empty and dot segments.
* `NormalPath`      — a path that is spelled so already.
-/

namespace Lib
namespace Segments

def split (path : Text) : List Text := path.splitOn '/'

def join (parts : List Text) : Text := ['/'].intercalate parts

/-- A segment that names a file or a directory. -/
def Plain (seg : Text) : Prop := seg ≠ [] ∧ seg ≠ ['.'] ∧ seg ≠ ['.', '.']

instance (seg : Text) : Decidable (Plain seg) := inferInstanceAs (Decidable (_ ∧ _ ∧ _))

def push (parts : List Text) (seg : Text) : Option (List Text) :=
  if seg = [] ∨ seg = ['.'] then some parts
  else if seg = ['.', '.'] then if parts.isEmpty then none else some parts.dropLast
  else some (parts ++ [seg])

def walk (parts segs : List Text) : Option (List Text) := segs.foldlM push parts

def normalize (path : Text) : Option Text := (walk [] (split path)).map join

def NormalPath (path : Text) : Prop := ∀ seg ∈ split path, Plain seg

instance (path : Text) : Decidable (NormalPath path) := inferInstanceAs (Decidable (∀ seg ∈ split path, Plain seg))

/-- Directory names: plain, and of one segment. -/
def Names (parts : List Text) : Prop := ∀ seg ∈ parts, Plain seg ∧ '/' ∉ seg

theorem push_plain {seg : Text} (h : Plain seg) (parts : List Text) : push parts seg = some (parts ++ [seg]) := by
  rw [push, if_neg (not_or.mpr ⟨h.1, h.2.1⟩), if_neg h.2.2]

theorem walk_cons (parts : List Text) (seg : Text) (segs : List Text) :
    walk parts (seg :: segs) = (push parts seg).bind (walk · segs) := by
  rw [walk, List.foldlM_cons]
  rfl

theorem walk_append (parts segs more : List Text) : walk parts (segs ++ more) = (walk parts segs).bind (walk · more) := by
  rw [walk, List.foldlM_append]
  rfl

theorem walk_plain {segs : List Text} (h : ∀ seg ∈ segs, Plain seg) (parts : List Text) :
    walk parts segs = some (parts ++ segs) := by
  induction segs generalizing parts with
  | nil => simp [walk]
  | cons seg segs ih =>
    rw [walk_cons, push_plain (h seg List.mem_cons_self), Option.bind_some,
      ih fun s hs => h s (List.mem_cons_of_mem _ hs), List.append_assoc, List.singleton_append]

theorem push_names {parts result : List Text} {seg : Text} (hparts : Names parts) (hseg : '/' ∉ seg)
    (h : push parts seg = some result) : Names result := by
  rw [push] at h
  split at h
  · cases h
    exact hparts
  · rename_i hskip
    split at h
    · split at h
      · cases h
      · cases h
        exact fun s hs => hparts s (List.dropLast_subset _ hs)
    · rename_i hup
      cases h
      intro s hs
      rcases List.mem_append.mp hs with hs | hs
      · exact hparts s hs
      · rw [List.mem_singleton.mp hs]
        exact ⟨⟨fun h => hskip (Or.inl h), fun h => hskip (Or.inr h), hup⟩, hseg⟩

/-- Whatever a walk reaches is a directory name by name. -/
theorem walk_names {parts segs result : List Text} (hparts : Names parts) (hsegs : ∀ seg ∈ segs, '/' ∉ seg)
    (h : walk parts segs = some result) : Names result := by
  induction segs generalizing parts with
  | nil =>
    cases h
    exact hparts
  | cons seg segs ih =>
    rw [walk_cons] at h
    obtain ⟨next, hpush, hwalk⟩ := Option.bind_eq_some_iff.mp h
    exact ih (push_names hparts (hsegs seg List.mem_cons_self) hpush) (fun s hs => hsegs s (List.mem_cons_of_mem _ hs))
      hwalk

theorem slash_not_mem_split (path : Text) : ∀ seg ∈ split path, '/' ∉ seg := by
  suffices h : ∀ (n : Nat) (path : Text), path.length ≤ n → ∀ seg ∈ split path, '/' ∉ seg from
    h path.length path (Nat.le_refl _)
  intro n
  induction n with
  | zero =>
    intro path hlen seg hseg
    rw [List.eq_nil_of_length_eq_zero (Nat.le_zero.mp hlen), split, List.splitOn_nil, List.mem_singleton] at hseg
    rw [hseg]
    exact List.not_mem_nil
  | succ n ih =>
    intro path hlen seg hseg
    by_cases hslash : '/' ∈ path
    · obtain ⟨a, b, rfl, hnot⟩ := List.eq_append_cons_of_mem hslash
      rw [split, List.splitOn_append_cons_self_of_not_mem hnot, List.mem_cons] at hseg
      rcases hseg with rfl | hseg
      · exact hnot
      · refine ih b ?_ seg hseg
        rw [List.length_append, List.length_cons] at hlen
        omega
    · rw [split, List.splitOn_eq_singleton hslash, List.mem_singleton] at hseg
      rw [hseg]
      exact hslash

theorem split_ne_nil (path : Text) : split path ≠ [] := List.splitOn_ne_nil _ _

theorem join_split (path : Text) : join (split path) = path := List.intercalate_splitOn '/'

theorem split_join {parts : List Text} (h : ∀ seg ∈ parts, '/' ∉ seg) (hne : parts ≠ []) : split (join parts) = parts :=
  List.splitOn_intercalate '/' h hne

theorem split_slash (a b : Text) : split (a ++ '/' :: b) = split a ++ split b := List.splitOn_append_cons_self a b

theorem join_concat (dirs : List Text) (last t : Text) : join (dirs ++ [last]) ++ t = join (dirs ++ [last ++ t]) := by
  induction dirs with
  | nil => simp [join]
  | cons d dirs ih =>
    have hne : ∀ l : Text, dirs ++ [l] ≠ [] := fun l => by simp
    rw [join, List.cons_append, List.intercalate_cons_of_ne_nil (hne _), List.append_assoc]
    rw [join] at ih
    rw [ih, join, join, List.cons_append, List.intercalate_cons_of_ne_nil (hne _)]

theorem join_child {parts : List Text} (hne : parts ≠ []) (name : Text) :
    join (parts ++ [name]) = join parts ++ '/' :: name := by
  induction parts with
  | nil => exact absurd rfl hne
  | cons d parts ih =>
    by_cases hnil : parts = []
    · rw [hnil]
      simp [join, List.intercalate_cons_cons]
    · rw [join] at ih
      rw [join, List.cons_append, List.intercalate_cons_of_ne_nil (by simp), ih hnil, join, join,
        List.intercalate_cons_of_ne_nil hnil]
      simp

/-- What stands after the last slash keeps its text in front of more text. -/
theorem split_append {t : Text} (ht : '/' ∉ t) (s : Text) :
    ∃ dirs last, split s = dirs ++ [last] ∧ split (s ++ t) = dirs ++ [last ++ t] := by
  have hlast := List.dropLast_append_getLast (split_ne_nil s)
  refine ⟨(split s).dropLast, (split s).getLast (split_ne_nil s), hlast.symm, ?_⟩
  have hslash := slash_not_mem_split s
  generalize (split s).getLast (split_ne_nil s) = last at hlast
  generalize (split s).dropLast = dirs at hlast
  rw [← join_split s, ← hlast]
  rw [← hlast] at hslash
  rw [join_concat, split_join _ (by simp)]
  intro seg hseg
  rcases List.mem_append.mp hseg with hseg | hseg
  · exact hslash seg (List.mem_append_left _ hseg)
  · rw [List.mem_singleton.mp hseg, List.mem_append, not_or]
    exact ⟨hslash last (List.mem_append_right _ List.mem_cons_self), ht⟩

theorem normalPath_join {parts : List Text} (h : Names parts) (hne : parts ≠ []) : NormalPath (join parts) := by
  intro seg hseg
  rw [split_join (fun s hs => (h s hs).2) hne] at hseg
  exact (h seg hseg).1

theorem names_split {path : Text} (h : NormalPath path) : Names (split path) :=
  fun seg hseg => ⟨h seg hseg, slash_not_mem_split path seg hseg⟩

end Segments
end Lib
