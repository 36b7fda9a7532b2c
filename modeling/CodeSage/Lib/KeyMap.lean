import Mathlib.Data.List.Perm.Basic

/-!
# CodeSage.Lib.KeyMap

An ordered map with natural-number keys, as the list of its entries in key order. `insert`
replaces the value of a key that is present; `values` lists the values in key order.
-/

namespace Lib

/-- Entries in increasing key order. -/
abbrev KeyMap (β : Type) := List (Nat × β)

namespace KeyMap

variable {β : Type}

def keys (m : KeyMap β) : List Nat := m.map Prod.fst

def values (m : KeyMap β) : List β := m.map Prod.snd

def insert (k : Nat) (v : β) : KeyMap β → KeyMap β
  | [] => [(k, v)]
  | (k', v') :: m =>
    if k < k' then (k, v) :: (k', v') :: m
    else if k = k' then (k, v) :: m
    else (k', v') :: insert k v m

def remove (k : Nat) (m : KeyMap β) : KeyMap β := m.filter fun e => e.1 ≠ k

/-- A fresh key adds one entry and keeps the others. -/
theorem insert_perm {k : Nat} {v : β} :
    ∀ {m : KeyMap β}, k ∉ m.keys → (insert k v m).Perm ((k, v) :: m) := by
  intro m
  induction m with
  | nil => intro _; exact .refl _
  | cons e m ih =>
    obtain ⟨k', v'⟩ := e
    intro h
    simp only [keys, List.map_cons, List.mem_cons, not_or] at h
    simp only [insert]
    split
    · exact .refl _
    · rw [if_neg h.1]
      exact (List.Perm.cons _ (ih h.2)).trans (.swap _ _ _)

theorem mem_insert {k : Nat} {v : β} {e : Nat × β} :
    ∀ {m : KeyMap β}, e ∈ insert k v m → e = (k, v) ∨ e ∈ m := by
  intro m
  induction m with
  | nil => intro h; simpa [insert] using h
  | cons e' m ih =>
    obtain ⟨k', v'⟩ := e'
    intro h
    simp only [insert] at h
    split at h
    · simpa using h
    · split at h
      · rcases List.mem_cons.mp h with h | h
        · exact .inl h
        · exact .inr (List.mem_cons_of_mem _ h)
      · rcases List.mem_cons.mp h with h | h
        · exact .inr (by rw [h]; exact List.mem_cons_self)
        · exact (ih h).imp id (List.mem_cons_of_mem _)

theorem mem_remove {k : Nat} {e : Nat × β} {m : KeyMap β} :
    e ∈ remove k m ↔ e ∈ m ∧ e.1 ≠ k := by
  simp [remove]

section Count

variable [DecidableEq β]

theorem count_values_insert {k : Nat} {v b : β} {m : KeyMap β} (h : k ∉ m.keys) :
    (insert k v m).values.count b = m.values.count b + if v = b then 1 else 0 := by
  rw [values, ((insert_perm h).map Prod.snd).count_eq]
  simp [values, List.count_cons]

theorem count_values_remove_le (k : Nat) (b : β) (m : KeyMap β) :
    (remove k m).values.count b ≤ m.values.count b :=
  List.Sublist.count_le b ((List.filter_sublist).map Prod.snd)

end Count

/-- In a map whose values are their own keys, removing one key keeps the count of the others. -/
theorem count_values_remove {k b : Nat} {m : KeyMap Nat} (hm : ∀ e ∈ m, e.2 = e.1) (h : b ≠ k) :
    (remove k m).values.count b = m.values.count b := by
  induction m with
  | nil => rfl
  | cons e m ih =>
    have he : e.2 = e.1 := hm e List.mem_cons_self
    have ih := ih fun e' h' => hm e' (List.mem_cons_of_mem _ h')
    simp only [remove, values, List.filter_cons, decide_not] at ih ⊢
    by_cases hk : e.1 = k
    · have hb : e.2 ≠ b := by rw [he, hk]; exact h.symm
      simp [hk, ih, hb]
    · simp [hk, ih, List.count_cons]

end KeyMap

end Lib
