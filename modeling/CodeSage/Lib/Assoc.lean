import Mathlib.Data.List.AList
import Mathlib.Data.List.Perm.Lattice

/-!
# CodeSage.Lib.Assoc

Lists and association lists in the form counting arguments need: a lookup after an update is a
case distinction on the key, and the whole is the element taken out plus the rest.
-/

namespace Lib

/-- The first element that passes `p`, what stands before it, and the list without it. -/
theorem find?_split {α : Type} {p : α → Bool} {l : List α} {a : α} (h : l.find? p = some a) :
    ∃ pre post, l = pre ++ a :: post ∧ l.eraseP p = pre ++ post ∧ p a = true ∧
      ∀ x ∈ pre, p x = false := by
  obtain ⟨ha, pre, post, hl, hpre⟩ := List.find?_eq_some_iff_append.mp h
  have hpre' : ∀ x ∈ pre, p x = false := fun x hx => by simpa using hpre x hx
  refine ⟨pre, post, hl, ?_, ha, hpre'⟩
  rw [hl, List.eraseP_append_right _ (fun x hx => by simp [hpre' x hx]), List.eraseP_cons_of_pos ha]

theorem perm_of_find? {α : Type} {p : α → Bool} {l : List α} {a : α} (h : l.find? p = some a) :
    l.Perm (a :: l.eraseP p) := by
  obtain ⟨pre, post, hl, he, _⟩ := find?_split h
  rw [he]
  conv_lhs => rw [hl]
  exact List.perm_middle

variable {κ ν : Type} [DecidableEq κ]

theorem lookup_insert (m : AList (fun _ : κ => ν)) (k k' : κ) (v : ν) :
    (m.insert k v).lookup k' = if k' = k then some v else m.lookup k' := by
  split
  · rename_i h; subst h; exact AList.lookup_insert m
  · rename_i h; exact AList.lookup_insert_ne h

theorem lookup_erase (m : AList (fun _ : κ => ν)) (k k' : κ) :
    (m.erase k).lookup k' = if k' = k then none else m.lookup k' := by
  split
  · rename_i h; subst h; exact AList.lookup_erase _ m
  · rename_i h; exact AList.lookup_erase_ne h

theorem mem_iff_lookup {m : AList (fun _ : κ => ν)} {k : κ} : k ∈ m ↔ m.lookup k ≠ none := by
  rw [Ne, AList.lookup_eq_none, not_not]

theorem entries_perm_erase {m : AList (fun _ : κ => ν)} {k : κ} {v : ν} (h : m.lookup k = some v) :
    m.entries.Perm (⟨k, v⟩ :: (m.erase k).entries) := by
  have hmem : (⟨k, v⟩ : Sigma fun _ => ν) ∈ m.entries := AList.mem_lookup_iff.mp h
  obtain ⟨e, l₁, l₂, _, he, hl, hr⟩ :=
    List.exists_of_eraseP (p := fun e : Sigma fun _ : κ => ν => k = e.1) hmem (by simp)
  have hek : e = ⟨k, v⟩ := by
    have he' : k = e.1 := by simpa using he
    have hin : e ∈ m.entries := by rw [hl]; simp
    obtain ⟨k', v'⟩ := e
    simp only at he'
    subst he'
    have := AList.mem_lookup_iff.mpr hin
    rw [h] at this
    cases this
    rfl
  subst hek
  have : (m.erase k).entries = l₁ ++ l₂ := hr
  rw [this]
  conv_lhs => rw [hl]
  exact List.perm_middle

theorem erase_entries_of_lookup_none {m : AList (fun _ : κ => ν)} {k : κ}
    (h : m.lookup k = none) : (m.erase k).entries = m.entries := by
  have hk : k ∉ m.keys := by
    have := AList.lookup_eq_none.mp h
    rwa [AList.mem_keys] at this
  exact List.kerase_of_notMem_keys hk

end Lib
