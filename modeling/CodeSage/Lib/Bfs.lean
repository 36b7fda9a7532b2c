import CodeSage.Lib.Reach
import Mathlib.Data.List.Nodup
import Mathlib.Data.List.Pairwise

/-!
# CodeSage.Lib.Bfs

Breadth-first search over nodes that are told apart by a key, with labelled edges and parent
pointers. `seen` lists the nodes in the order they were found, each with its depth.

`Record` is what the search keeps; `Record.push` is one discovery. Nodes with equal keys are one
node to the search, so that what it proves about all chains needs `Alike`: nodes it may confuse lead
to the same keys.
-/

namespace Lib
namespace Bfs

variable {σ κ ℓ : Type} (key : σ → κ) (out : σ → List (σ × ℓ))

def Edge (a b : σ) : Prop := ∃ l, (b, l) ∈ out a

/-- Two nodes reached from the origins that have one key have callees with the same keys. -/
def Alike (origins : List σ) : Prop :=
  ∀ a b m n, ReachIn (Edge out) (· ∈ origins) m a → ReachIn (Edge out) (· ∈ origins) n b →
    key a = key b → ∀ c, Edge out a c → ∃ c', Edge out b c' ∧ key c' = key c

structure Record (origins : List σ) (seen : List (σ × Nat)) (parents : κ → Option (σ × ℓ)) :
    Prop where
  nodup : (seen.map fun e => key e.1).Nodup
  sorted : seen.Pairwise fun a b => a.2 ≤ b.2
  origin : ∀ o ∈ origins, ∃ o', (o', 0) ∈ seen ∧ key o' = key o
  root : ∀ s, (s, 0) ∈ seen → s ∈ origins ∧ parents (key s) = none
  parent : ∀ s n, (s, n + 1) ∈ seen →
    ∃ p l, (p, n) ∈ seen ∧ (s, l) ∈ out p ∧ parents (key s) = some (p, l)

/-- Every edge of the node leads to a node that has been seen. -/
def Expanded (seen : List (σ × Nat)) (s : σ) (n : Nat) : Prop :=
  ∀ d l, (d, l) ∈ out s → ∃ d' m, (d', m) ∈ seen ∧ key d' = key d ∧ m ≤ n + 1

variable {key out} {origins : List σ} {seen : List (σ × Nat)} {parents : κ → Option (σ × ℓ)}

theorem Expanded.mono {s : σ} {n : Nat} (h : Expanded key out seen s n) (more : List (σ × Nat)) :
    Expanded key out (seen ++ more) s n := by
  intro d l hd
  obtain ⟨d', m, hm, hk, hle⟩ := h d l hd
  exact ⟨d', m, List.mem_append_left _ hm, hk, hle⟩

/-- A key stands for one entry. -/
theorem Record.unique (h : Record key out origins seen parents) {s s' : σ} {n n' : Nat}
    (hs : (s, n) ∈ seen) (hs' : (s', n') ∈ seen) (hk : key s = key s') : s = s' ∧ n = n' := by
  have := List.inj_on_of_nodup_map h.nodup hs hs' hk
  exact Prod.mk.inj this

/-- An entry whose key is that of an origin is at depth 0. -/
theorem Record.depth_zero (h : Record key out origins seen parents) {s o : σ} {n : Nat}
    (hs : (s, n) ∈ seen) (ho : o ∈ origins) (hk : key s = key o) : n = 0 := by
  obtain ⟨o', ho', hko⟩ := h.origin o ho
  exact (h.unique hs ho' (hk.trans hko.symm)).2

theorem Record.reached (h : Record key out origins seen parents) :
    ∀ n s, (s, n) ∈ seen → ReachIn (Edge out) (· ∈ origins) n s := by
  intro n
  induction n with
  | zero => exact fun s hs => (h.root s hs).1
  | succ n ih =>
    intro s hs
    obtain ⟨p, l, hp, hl, _⟩ := h.parent s n hs
    exact ⟨p, ih p hp, l, hl⟩

/-- A node found along an edge of an entry, with a new key. -/
theorem Record.push [DecidableEq κ] (h : Record key out origins seen parents) {p d : σ} {n : Nat}
    {l : ℓ} (hp : (p, n) ∈ seen) (hd : (d, l) ∈ out p) (hnew : ∀ e ∈ seen, key e.1 ≠ key d)
    (hlast : ∀ e ∈ seen, e.2 ≤ n + 1) :
    Record key out origins (seen ++ [(d, n + 1)]) (Function.update parents (key d) (some (p, l))) := by
  have hother : ∀ s m, (s, m) ∈ seen →
      Function.update parents (key d) (some (p, l)) (key s) = parents (key s) :=
    fun s m hs => Function.update_of_ne (hnew _ hs) ..
  refine ⟨?_, ?_, ?_, ?_, ?_⟩
  · rw [List.map_append, List.nodup_append]
    refine ⟨h.nodup, List.nodup_singleton _, fun a ha b hb => ?_⟩
    obtain ⟨e, he, rfl⟩ := List.mem_map.mp ha
    rw [List.mem_singleton.mp hb]
    exact hnew e he
  · rw [List.pairwise_append]
    refine ⟨h.sorted, List.pairwise_singleton _ _, fun a ha b hb => ?_⟩
    rw [List.mem_singleton.mp hb]
    exact hlast a ha
  · intro o ho
    obtain ⟨o', ho', hk⟩ := h.origin o ho
    exact ⟨o', List.mem_append_left _ ho', hk⟩
  · intro s hs
    rcases List.mem_append.mp hs with hs | hs
    · rw [hother s 0 hs]
      exact h.root s hs
    · simp at hs
  · intro s m hs
    rcases List.mem_append.mp hs with hs | hs
    · obtain ⟨q, k, hq, hk, hpar⟩ := h.parent s m hs
      exact ⟨q, k, List.mem_append_left _ hq, hk, (hother s _ hs).trans hpar⟩
    · obtain ⟨rfl, hm⟩ := Prod.mk.inj (List.mem_singleton.mp hs)
      obtain rfl : m = n := by omega
      exact ⟨p, l, List.mem_append_left _ hp, hd, Function.update_self ..⟩

/-- Up to the depth at which every entry has been expanded, every node reached has been seen at a
depth no greater than the number of steps. -/
theorem Record.seen_of_reached (h : Record key out origins seen parents) (halike : Alike key out origins)
    {m : Nat} (hexp : ∀ s n, (s, n) ∈ seen → n < m → Expanded key out seen s n) {n : Nat} {x : σ}
    (hx : ReachIn (Edge out) (· ∈ origins) n x) :
    n ≤ m → ∃ s k, (s, k) ∈ seen ∧ key s = key x ∧ k ≤ n := by
  refine hx.invariant (P := fun n x => n ≤ m → ∃ s k, (s, k) ∈ seen ∧ key s = key x ∧ k ≤ n) ?_ ?_
  · intro o ho _
    obtain ⟨o', ho', hk⟩ := h.origin o ho
    exact ⟨o', 0, ho', hk, Nat.le_refl 0⟩
  · intro n y z hy ih hyz hle
    obtain ⟨s, k, hs, hk, hkn⟩ := ih (by omega)
    obtain ⟨z', ⟨l, hl⟩, hz⟩ := halike y s n k hy (h.reached k s hs) hk.symm z hyz
    obtain ⟨d, j, hd, hkd, hj⟩ := hexp s k hs (by omega) z' l hl
    exact ⟨d, j, hd, hkd.trans hz, by omega⟩

end Bfs
end Lib
