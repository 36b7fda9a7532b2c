import Mathlib.Data.List.Basic
import Mathlib.Data.List.Perm.Basic
import Mathlib.Tactic.Common

/-!
# CodeSage.Lib.Ranking

The first `limit` rows of a stable sort by a total preorder, when the rows come in an unknown order. Two
orders can only disagree about rows that tie, and they do so exactly when such a tie reaches above the limit.
-/

namespace Lib
namespace Ranking

variable {β : Type} {le : β → β → Bool}

/-- The rows strictly before `a`. -/
def ahead (le : β → β → Bool) (a : β) (rows : List β) : Nat := rows.countP fun x => !le a x

variable (trans : ∀ a b c, le a b = true → le b c = true → le a c = true)
variable (total : ∀ a b, (le a b || le b a) = true)

/-- In a sorted list at most `i` rows are strictly before the row number `i`. -/
theorem ahead_le {rows : List β} (hsorted : rows.Pairwise fun a b => le a b = true) {i : Nat} (hi : i < rows.length)
    (hrefl : le rows[i] rows[i] = true) : ahead le rows[i] rows ≤ i := by
  have hdrop : (rows.drop i).countP (fun x => !le rows[i] x) = 0 := by
    rw [List.countP_eq_zero]
    intro x hx
    obtain ⟨j, hj, rfl⟩ := List.mem_iff_getElem.mp hx
    rw [List.getElem_drop]
    rcases Nat.eq_zero_or_pos j with rfl | hpos
    · simp [hrefl]
    · have hlt : i + j < rows.length := by
        rw [List.length_drop] at hj
        omega
      have := List.pairwise_iff_getElem.mp hsorted i (i + j) hi hlt (by omega)
      simp [this]
  have htake := List.countP_le_length (p := fun x => !le rows[i] x) (l := rows.take i)
  rw [List.length_take] at htake
  have hsplit : ∀ p : β → Bool, rows.countP p = (rows.take i).countP p + (rows.drop i).countP p := by
    intro p
    rw [← List.countP_append, List.take_append_drop]
  rw [ahead, hsplit]
  omega

/-- Rows that are all strictly before `a` and come first count. -/
theorem le_ahead {rows : List β} {a : β} {n : Nat} (hn : n ≤ rows.length)
    (h : ∀ x ∈ rows.take n, le a x = false) : n ≤ ahead le a rows := by
  have htake : (rows.take n).countP (fun x => !le a x) = (rows.take n).length := by
    rw [List.countP_eq_length]
    intro x hx
    simp [h x hx]
  rw [ahead, ← List.take_append_drop n rows, List.countP_append, htake, List.length_take]
  omega

include total in
theorem refl_of_total (a : β) : le a a = true := by
  simpa using total a a

include trans total in
/-- Two sorted lists of the same rows tie at every place. -/
theorem tie_at {xs ys : List β} (hx : xs.Pairwise fun a b => le a b = true)
    (hy : ys.Pairwise fun a b => le a b = true) (hperm : xs.Perm ys) {i : Nat} (hi : i < xs.length)
    (hi' : i < ys.length) : le xs[i] ys[i] = true := by
  by_contra hnot
  have hnot : le xs[i] ys[i] = false := by simpa using hnot
  have hlow : ahead le xs[i] xs ≤ i := ahead_le hx hi (refl_of_total total _)
  have hhigh : i + 1 ≤ ahead le xs[i] ys := by
    refine le_ahead hi' fun x hmem => ?_
    obtain ⟨j, hj, rfl⟩ := List.mem_iff_getElem.mp hmem
    rw [List.length_take] at hj
    rw [List.getElem_take]
    by_contra hle
    have hle : le xs[i] ys[j] = true := by simpa using hle
    rcases Nat.lt_or_ge j i with hlt | hge
    · have := List.pairwise_iff_getElem.mp hy j i (by omega) hi' hlt
      rw [trans _ _ _ hle this] at hnot
      cases hnot
    · have heq : j = i := by omega
      subst heq
      rw [hle] at hnot
      cases hnot
  have hcount : ahead le xs[i] xs = ahead le xs[i] ys := hperm.countP_eq _
  omega

include trans total in
/-- The first rows do not depend on the order of arrival exactly when no tie reaches above the limit. -/
theorem take_mergeSort_eq_iff (values : List β) (limit : Nat) :
    (∀ e₁ e₂ : List β, e₁.Perm values → e₂.Perm values →
        (e₁.mergeSort le).take limit = (e₂.mergeSort le).take limit) ↔
      ∀ a ∈ values, ∀ b ∈ values, a ≠ b → le a b = true → le b a = true → limit ≤ ahead le a values := by
  constructor
  · intro h a ha b hb hne hab hba
    by_contra hlimit
    have hplace : ∀ c ∈ values, (∀ x, le c x = le a x) →
        ∃ e : List β, e.Perm values ∧ ((e.mergeSort le).take limit)[ahead le a values]? = some c := by
      intro c hc hsame
      obtain ⟨rest, hrest⟩ : ∃ rest, values.Perm (c :: rest) := by
        obtain ⟨s, t, rfl⟩ := List.append_of_mem hc
        exact ⟨s ++ t, List.perm_middle⟩
      obtain ⟨l₁, l₂, hsort, -, hless⟩ : ∃ l₁ l₂, (c :: rest).mergeSort le = l₁ ++ c :: l₂ ∧
          rest.mergeSort le = l₁ ++ l₂ ∧ ∀ x ∈ l₁, !le c x := List.mergeSort_cons trans total c rest
      have hsorted : ((c :: rest).mergeSort le).Pairwise fun a b => le a b = true :=
        List.pairwise_mergeSort trans total _
      rw [hsort] at hsorted
      have hcount : ahead le a values = l₁.length := by
        have hperm : values.Perm (l₁ ++ c :: l₂) := hrest.trans (hsort ▸ (List.mergeSort_perm (c :: rest) le).symm)
        have hl₁ : l₁.countP (fun x => !le a x) = l₁.length :=
          List.countP_eq_length.mpr fun x hx => by rw [← hsame]; exact hless x hx
        have hl₂ : (c :: l₂).countP (fun x => !le a x) = 0 := by
          refine List.countP_eq_zero.mpr fun x hx => ?_
          rw [← hsame]
          rcases List.mem_cons.mp hx with rfl | hx
          · simp [refl_of_total total x]
          · have := (List.pairwise_cons.mp (List.pairwise_append.mp hsorted).2.1).1 x hx
            simp [this]
        rw [ahead, hperm.countP_eq, List.countP_append, hl₁, hl₂, Nat.add_zero]
      refine ⟨c :: rest, hrest.symm, ?_⟩
      rw [hsort, List.getElem?_take_of_lt (by omega), hcount, List.getElem?_append_right (Nat.le_refl _), Nat.sub_self]
      rfl
    have hsame : ∀ x, le b x = le a x := by
      intro x
      rw [Bool.eq_iff_iff]
      exact ⟨trans a b x hab, trans b a x hba⟩
    obtain ⟨e₁, he₁, hat₁⟩ := hplace a ha fun _ => rfl
    obtain ⟨e₂, he₂, hat₂⟩ := hplace b hb hsame
    rw [h e₁ e₂ he₁ he₂, hat₂] at hat₁
    exact hne (Option.some.inj hat₁).symm
  · intro h e₁ e₂ he₁ he₂
    have hs₁ : (e₁.mergeSort le).Pairwise fun a b => le a b = true := List.pairwise_mergeSort trans total _
    have hs₂ : (e₂.mergeSort le).Pairwise fun a b => le a b = true := List.pairwise_mergeSort trans total _
    have hp₁ : (e₁.mergeSort le).Perm values := (List.mergeSort_perm e₁ le).trans he₁
    have hp₂ : (e₂.mergeSort le).Perm values := (List.mergeSort_perm e₂ le).trans he₂
    have hperm := hp₁.trans hp₂.symm
    generalize e₁.mergeSort le = xs at hs₁ hp₁ hperm
    generalize e₂.mergeSort le = ys at hs₂ hp₂ hperm
    refine List.ext_getElem (by simp [hperm.length_eq]) fun i hi hi' => ?_
    rw [List.length_take] at hi hi'
    rw [List.getElem_take, List.getElem_take]
    have hix : i < xs.length := by omega
    have hiy : i < ys.length := by omega
    by_contra hne
    have hlimit := h xs[i] (hp₁.mem_iff.mp (List.getElem_mem hix)) ys[i] (hp₂.mem_iff.mp (List.getElem_mem hiy)) hne
      (tie_at trans total hs₁ hs₂ hperm hix hiy) (tie_at trans total hs₂ hs₁ hperm.symm hiy hix)
    have hahead : ahead le xs[i] values = ahead le xs[i] xs := (hp₁.countP_eq _).symm
    have := ahead_le hs₁ hix (refl_of_total total _)
    omega

section Order

/-- The places of the rows in the order in which a stable sort leaves them. -/
def order (le : β → β → Bool) (rows : List β) : List Nat :=
  (rows.zipIdx.mergeSort fun a b => le a.1 b.1).map Prod.snd

theorem order_perm (le : β → β → Bool) (rows : List β) : (order le rows).Perm (List.range rows.length) := by
  have hperm := (List.mergeSort_perm rows.zipIdx fun a b => le a.1 b.1).map Prod.snd
  rw [List.zipIdx_map_snd] at hperm
  rwa [List.range_eq_range']

theorem mergeSort_eq_order (le : β → β → Bool) (rows : List β) :
    (rows.mergeSort le).map some = (order le rows).map (rows[·]?) := by
  have hsort : rows.mergeSort le = (rows.zipIdx.mergeSort fun a b => le a.1 b.1).map Prod.fst := by
    rw [List.map_mergeSort (s := le) fun _ _ _ _ => rfl, List.zipIdx_map_fst]
  rw [hsort, order, List.map_map, List.map_map]
  refine List.map_congr_left fun p hp => ?_
  have hmem := List.mem_zipIdx_iff_getElem?.mp (List.mem_mergeSort.mp hp)
  exact hmem.symm

include trans total in
/-- Rows that the sort has no reason to exchange stay in order. -/
theorem sublist_order {rows : List β} {i j : Nat} (hij : i < j) (hi : i < rows.length) (hj : j < rows.length)
    (hle : le rows[i] rows[j] = true) : [i, j].Sublist (order le rows) := by
  have hsub : [(rows[i], i), (rows[j], j)].Sublist rows.zipIdx := by
    have hlen : rows.zipIdx.length = rows.length := List.length_zipIdx
    have hpairwise : [(⟨i, hlen ▸ hi⟩ : Fin rows.zipIdx.length), ⟨j, hlen ▸ hj⟩].Pairwise (· < ·) :=
      List.pairwise_pair.mpr hij
    simpa using List.map_getElem_sublist hpairwise
  have htrans : ∀ a b c : β × Nat, le a.1 b.1 = true → le b.1 c.1 = true → le a.1 c.1 = true :=
    fun a b c => trans a.1 b.1 c.1
  exact (List.pair_sublist_mergeSort htrans (fun a b => total a.1 b.1) hle hsub).map Prod.snd

include trans total in
/-- The first row stays first when no row is strictly before it. -/
theorem order_head {rows : List β} (hpos : 0 < rows.length)
    (hfirst : ∀ j (hj : j < rows.length), le rows[0] rows[j] = true) : (order le rows).head? = some 0 := by
  have hperm := order_perm le rows
  have hnodup : (order le rows).Nodup := hperm.nodup_iff.mpr List.nodup_range
  cases horder : order le rows with
  | nil =>
    have := hperm.length_eq
    simp [horder] at this
    omega
  | cons i rest =>
    rw [List.head?_cons]
    by_contra hi
    have hi : i ≠ 0 := fun h => hi (by rw [h])
    have hlt : i < rows.length := List.mem_range.mp (hperm.mem_iff.mp (horder ▸ List.mem_cons_self))
    have hsub := sublist_order trans total (Nat.pos_of_ne_zero hi) hpos hlt (hfirst i hlt)
    rw [horder] at hsub hnodup
    rcases List.sublist_cons_iff.mp hsub with hsub | ⟨r, heq, -⟩
    · exact (List.nodup_cons.mp hnodup).1 (hsub.subset (by simp))
    · exact hi (List.cons.inj heq).1.symm

end Order

section Lazy

end Lazy

end Ranking
end Lib
