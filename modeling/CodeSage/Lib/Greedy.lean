import Mathlib.Data.List.Nodup
import Mathlib.Data.List.Infix
import Mathlib.Tactic.Common

/-!
# CodeSage.Lib.Greedy

A choice made along a list: an element is taken unless one taken before it covers it.
-/

namespace Lib
namespace Greedy

variable {α : Type} (covers : α → α → Prop)

/-- `a` stands before `b`. -/
def Before (l : List α) (a b : α) : Prop := List.Sublist [a, b] l

open Classical in
noncomputable def choose (l : List α) : List α :=
  l.foldl (fun taken b => if ∃ a ∈ taken, covers a b then taken else taken ++ [b]) []

/-- One taken before `b` covers it. -/
def CoveredBefore (l : List α) (b : α) : Prop := ∃ a ∈ choose covers l, Before l a b ∧ covers a b

variable {covers} {l : List α}

theorem choose_concat_of_covered {b : α} (h : ∃ a ∈ choose covers l, covers a b) : choose covers (l ++ [b]) = choose covers l := by
  rw [choose, List.foldl_concat]
  exact if_pos h

theorem choose_concat {b : α} (h : ¬∃ a ∈ choose covers l, covers a b) : choose covers (l ++ [b]) = choose covers l ++ [b] := by
  rw [choose, List.foldl_concat]
  exact if_neg h

theorem mem_choose_concat {a b : α} :
    a ∈ choose covers (l ++ [b]) ↔ a ∈ choose covers l ∨ a = b ∧ ¬∃ c ∈ choose covers l, covers c b := by
  by_cases h : ∃ c ∈ choose covers l, covers c b
  · rw [choose_concat_of_covered h]
    exact ⟨Or.inl, fun ha => ha.elim id fun hb => absurd h hb.2⟩
  · rw [choose_concat h, List.mem_append, List.mem_singleton, and_iff_left h]

theorem mem_of_mem_choose {a : α} (h : a ∈ choose covers l) : a ∈ l := by
  induction l using List.reverseRecOn with
  | nil => cases h
  | append_singleton l b ih =>
    rcases mem_choose_concat.mp h with h | ⟨rfl, -⟩
    · exact List.mem_append_left _ (ih h)
    · exact List.mem_append_right _ (List.mem_singleton_self _)

theorem choose_subset_append (l more : List α) : choose covers l ⊆ choose covers (l ++ more) := by
  induction more using List.reverseRecOn with
  | nil => rw [List.append_nil]; exact List.Subset.refl _
  | append_singleton more b ih =>
    rw [← List.append_assoc]
    exact fun a ha => mem_choose_concat.mpr (Or.inl (ih ha))

theorem before_concat {a b x : α} : Before (l ++ [x]) a b ↔ Before l a b ∨ a ∈ l ∧ b = x := by
  have hlast : Before (l ++ [x]) a b ↔ [b, a].Sublist (x :: l.reverse) := by
    rw [Before, ← List.reverse_sublist]
    simp
  have hinit : Before l a b ↔ [b, a].Sublist l.reverse := by
    rw [Before, ← List.reverse_sublist]
    simp
  rw [hlast, hinit, List.sublist_cons_iff]
  refine or_congr_right ⟨?_, ?_⟩
  · rintro ⟨r, hr, hsub⟩
    cases hr
    exact ⟨by simpa using hsub, rfl⟩
  · rintro ⟨ha, rfl⟩
    exact ⟨[a], rfl, by simpa using ha⟩

theorem before_or {a b : α} (ha : a ∈ l) (hb : b ∈ l) (hne : a ≠ b) : Before l a b ∨ Before l b a := by
  obtain ⟨pre, post, rfl⟩ := List.append_of_mem ha
  rcases List.mem_append.mp hb with hb | hb
  · exact Or.inr ((List.singleton_sublist.mpr hb).append (List.singleton_sublist.mpr List.mem_cons_self))
  · refine Or.inl (List.Sublist.trans ?_ (List.sublist_append_right pre (a :: post)))
    exact (List.singleton_sublist.mpr ((List.mem_cons.mp hb).resolve_left (Ne.symm hne))).cons_cons a

/-- An element is taken unless one taken before it covers it. -/
theorem mem_choose (hl : l.Nodup) {b : α} : b ∈ choose covers l ↔ b ∈ l ∧ ¬CoveredBefore covers l b := by
  induction l using List.reverseRecOn with
  | nil => exact ⟨nofun, fun h => h.1⟩
  | append_singleton l x ih =>
    have hl' : l.Nodup := hl.sublist (List.sublist_append_left l [x])
    have hx : x ∉ l := fun hmem => (List.nodup_append.mp hl).2.2 x hmem x (List.mem_singleton_self x) rfl
    have hbefore : ∀ a, a ∈ choose covers (l ++ [x]) ∧ Before (l ++ [x]) a b ∧ covers a b ↔
        a ∈ choose covers l ∧ (Before l a b ∨ b = x) ∧ covers a b := by
      intro a
      rw [before_concat]
      constructor
      · rintro ⟨ha, hab, hcover⟩
        have hal : a ∈ l := hab.elim (fun h => h.subset (by simp)) And.left
        refine ⟨(mem_choose_concat.mp ha).resolve_right fun h => hx (h.1 ▸ hal), hab.imp id And.right, hcover⟩
      · rintro ⟨ha, hab, hcover⟩
        exact ⟨mem_choose_concat.mpr (Or.inl ha), hab.imp id fun h => ⟨mem_of_mem_choose ha, h⟩, hcover⟩
    have hcovered : CoveredBefore covers (l ++ [x]) b ↔ ∃ a ∈ choose covers l, (Before l a b ∨ b = x) ∧ covers a b :=
      exists_congr hbefore
    rw [hcovered, mem_choose_concat, ih hl', List.mem_append, List.mem_singleton]
    by_cases hb : b = x
    · subst hb
      simp [hx]
    · simp [hb, CoveredBefore]

/-- No element taken covers another one without being covered by it in turn just if the list has the covering
elements first, elements covered before their place apart. -/
theorem choose_apart_iff (hl : l.Nodup) :
    (∀ a ∈ choose covers l, ∀ b ∈ choose covers l, a ≠ b → covers a b → covers b a) ↔
      ∀ a b, Before l b a → covers a b → covers b a ∨ CoveredBefore covers l a ∨ CoveredBefore covers l b := by
  constructor
  · intro h a b hba hcover
    by_cases ha : CoveredBefore covers l a
    · exact Or.inr (Or.inl ha)
    by_cases hb : CoveredBefore covers l b
    · exact Or.inr (Or.inr hb)
    have hne : a ≠ b := by
      rintro rfl
      exact List.not_nodup_pair a (hl.sublist hba)
    exact Or.inl (h a ((mem_choose hl).mpr ⟨hba.subset (by simp), ha⟩) b ((mem_choose hl).mpr ⟨hba.subset (by simp), hb⟩) hne hcover)
  · intro h a ha b hb hne hcover
    obtain ⟨hal, hanot⟩ := (mem_choose hl).mp ha
    obtain ⟨hbl, hbnot⟩ := (mem_choose hl).mp hb
    have hbefore : ¬Before l a b := fun hab => hbnot ⟨a, ha, hab, hcover⟩
    have hba : Before l b a := (before_or hal hbl hne).resolve_left hbefore
    exact (h a b hba hcover).elim id fun hor => hor.elim (absurd · hanot) (absurd · hbnot)

end Greedy
end Lib
