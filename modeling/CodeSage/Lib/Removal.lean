import Mathlib.Data.List.Dedup
import Mathlib.Data.List.Perm.Subperm
import Mathlib.Logic.Relation
import Mathlib.Tactic.Common

/-!
# CodeSage.Lib.Removal

A finite directed graph, given by its edges, without one of them: when it is no longer strongly connected, and when it
has no cycle left.
-/

namespace Lib
namespace Removal

variable {α : Type} {edges : List (α × α)}

/-- There is a path along the edges, perhaps of no edge. -/
def Reaches (edges : List (α × α)) : α → α → Prop := Relation.ReflTransGen fun x y => (x, y) ∈ edges

def StronglyConnected (nodes : List α) (edges : List (α × α)) : Prop := ∀ x ∈ nodes, ∀ y ∈ nodes, Reaches edges x y

def HasCycle (edges : List (α × α)) : Prop := ∃ x, Relation.TransGen (fun x y => (x, y) ∈ edges) x x

def without [DecidableEq α] (e : α × α) (edges : List (α × α)) : List (α × α) := edges.filter fun d => d ≠ e

/-- Some set of nodes is left by this edge and by no other. -/
def SoleExit (edges : List (α × α)) (e : α × α) : Prop :=
  ∃ S : α → Prop, S e.1 ∧ ¬S e.2 ∧ ∀ d ∈ edges, S d.1 → ¬S d.2 → d = e

/-- The edges that do not go up in a ranking. -/
def backEdges (rank : α → Nat) (edges : List (α × α)) : List (α × α) := edges.filter fun d => rank d.2 ≤ rank d.1

theorem mem_without [DecidableEq α] {e d : α × α} : d ∈ without e edges ↔ d ∈ edges ∧ d ≠ e := by
  rw [without, List.mem_filter, decide_eq_true_eq]

theorem mem_backEdges {rank : α → Nat} {d : α × α} : d ∈ backEdges rank edges ↔ d ∈ edges ∧ rank d.2 ≤ rank d.1 := by
  rw [backEdges, List.mem_filter, decide_eq_true_eq]

section Connected

variable [DecidableEq α] {nodes : List α} {e : α × α}

/-- A way round an edge takes its place in every path. -/
theorem reaches_without (hround : Reaches (without e edges) e.1 e.2) {x y : α} (h : Reaches edges x y) :
    Reaches (without e edges) x y := by
  induction h with
  | refl => exact .refl
  | @tail y z _ hedge ih =>
    by_cases heq : (y, z) = e
    · subst heq
      exact ih.trans hround
    · exact ih.tail (mem_without.mpr ⟨hedge, heq⟩)

theorem not_stronglyConnected_without (hconnected : StronglyConnected nodes edges) (hfrom : e.1 ∈ nodes)
    (hto : e.2 ∈ nodes) : ¬StronglyConnected nodes (without e edges) ↔ SoleExit edges e := by
  constructor
  · intro hbroken
    refine ⟨Reaches (without e edges) e.1, .refl, fun hround => hbroken fun x hx y hy => ?_, fun d hd hin hout => ?_⟩
    · exact reaches_without hround (hconnected x hx y hy)
    · by_contra hne
      exact hout (hin.tail (mem_without.mpr ⟨hd, hne⟩))
  · rintro ⟨S, hin, hout, honly⟩ hstill
    have hstays : ∀ y, Reaches (without e edges) e.1 y → S y := by
      intro y hy
      induction hy with
      | refl => exact hin
      | @tail y z _ hedge ih =>
        obtain ⟨hmem, hne⟩ := mem_without.mp hedge
        by_contra hz
        exact hne (honly _ hmem ih hz)
    exact hout (hstays e.2 (hstill e.1 hfrom e.2 hto))

end Connected

section Acyclic

/-- Edges that all go up in a ranking have no cycle. -/
theorem not_hasCycle_of_rank (rank : α → Nat) (hup : ∀ d ∈ edges, rank d.1 < rank d.2) : ¬HasCycle edges := by
  rintro ⟨x, hcycle⟩
  have hless : ∀ y, Relation.TransGen (fun x y => (x, y) ∈ edges) x y → rank x < rank y := by
    intro y hy
    induction hy with
    | single hedge => exact hup _ hedge
    | tail _ hedge ih => exact Nat.lt_trans ih (hup _ hedge)
  exact Nat.lt_irrefl _ (hless x hcycle)

open Classical in
/-- Without a cycle the number of nodes that lead to a node is a ranking. -/
theorem exists_rank (hacyclic : ¬HasCycle edges) : ∃ rank : α → Nat, ∀ d ∈ edges, rank d.1 < rank d.2 := by
  let path := Relation.TransGen fun x y => (x, y) ∈ edges
  let nodes := (edges.map Prod.fst).dedup
  refine ⟨fun y => (nodes.filter fun x => path x y).length, fun d hd => ?_⟩
  have hnodes : d.1 ∈ nodes := List.mem_dedup.mpr (List.mem_map_of_mem hd)
  have hedge : path d.1 d.2 := .single hd
  have hself : d.1 ∉ nodes.filter fun x => path x d.1 := by
    intro hmem
    exact hacyclic ⟨d.1, of_decide_eq_true (List.mem_filter.mp hmem).2⟩
  have hsub : d.1 :: (nodes.filter fun x => path x d.1) ⊆ nodes.filter fun x => path x d.2 := by
    intro x hx
    rcases List.mem_cons.mp hx with rfl | hx
    · exact List.mem_filter.mpr ⟨hnodes, decide_eq_true hedge⟩
    · obtain ⟨hmem, hpath⟩ := List.mem_filter.mp hx
      exact List.mem_filter.mpr ⟨hmem, decide_eq_true ((of_decide_eq_true hpath).trans hedge)⟩
  have hnodup : (d.1 :: nodes.filter fun x => path x d.1).Nodup :=
    List.nodup_cons.mpr ⟨hself, (List.nodup_dedup _).filter _⟩
  exact (List.Nodup.subperm hnodup hsub).length_le

variable [DecidableEq α]

/-- Every removal of one edge leaves a cycle when every ranking leaves two edges that do not go up. -/
theorem hasCycle_without_iff (hne : edges ≠ []) (hnodup : edges.Nodup) :
    (∀ e ∈ edges, HasCycle (without e edges)) ↔ ∀ rank : α → Nat, 2 ≤ (backEdges rank edges).length := by
  constructor
  · intro hcycles rank
    by_contra hfew
    -- all other edges go up, so the removal of this one leaves no cycle
    obtain ⟨e, he, hall⟩ : ∃ e ∈ edges, ∀ d ∈ backEdges rank edges, d = e := by
      match hback : backEdges rank edges with
      | [] =>
        obtain ⟨e, he⟩ := List.exists_mem_of_ne_nil edges hne
        exact ⟨e, he, fun d hd => absurd hd List.not_mem_nil⟩
      | [e] =>
        have he : e ∈ backEdges rank edges := hback ▸ List.mem_singleton_self e
        exact ⟨e, (mem_backEdges.mp he).1, fun d hd => List.mem_singleton.mp hd⟩
      | _ :: _ :: _ =>
        rw [hback] at hfew
        simp at hfew
    refine not_hasCycle_of_rank rank (fun d hd => ?_) (hcycles e he)
    obtain ⟨hmem, hde⟩ := mem_without.mp hd
    by_contra hle
    exact hde (hall d (mem_backEdges.mpr ⟨hmem, Nat.not_lt.mp hle⟩))
  · intro hback e he
    by_contra hacyclic
    obtain ⟨rank, hup⟩ := exists_rank hacyclic
    have hsub : backEdges rank edges ⊆ [e] := by
      intro d hd
      obtain ⟨hmem, hle⟩ := mem_backEdges.mp hd
      by_contra hde
      exact absurd (hup d (mem_without.mpr ⟨hmem, fun h => hde (List.mem_singleton.mpr h)⟩)) (Nat.not_lt.mpr hle)
    have hlen := (List.Nodup.subperm (hnodup.filter _) hsub).length_le
    have := hback rank
    rw [backEdges] at this
    simp only [List.length_singleton] at hlen
    omega

end Acyclic

end Removal
end Lib
