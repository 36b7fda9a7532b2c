import Mathlib.Data.List.Count
import Mathlib.Data.List.Nodup
import Mathlib.Logic.Function.Basic
import Mathlib.Tactic.Common

/-!
# CodeSage.Lib.Kahn

A pass over the nodes of a graph that takes a node once every node pointing at it has been taken, with one
counter a node and a queue of the nodes whose counter is 0.

`pass` acts on each node it takes. Nodes on a cycle, and what only they point at, are never taken;
`Counted.pass_eq` says that the pass is a fold over a list of nodes that the action has no part in.
-/

namespace Lib
namespace Kahn

section Pass

/-- How a loop is left before its end. -/
inductive Exit (ρ : Type) where
  | panic
  | outOfFuel
  | returned (result : ρ)
deriving DecidableEq

variable {α σ ρ : Type} [DecidableEq α]

/-- One parent of each listed node has been taken: the counters then, and the nodes with no parent left.
`none` for a node without a counter, and where a counter is 0 already. -/
def release : List α → (α → Option Nat) → Option ((α → Option Nat) × List α)
  | [], parents => some (parents, [])
  | child :: rest, parents =>
    match parents child with
    | some (n + 1) =>
      (release rest (Function.update parents child (some n))).map fun r => (r.1, if n = 0 then child :: r.2 else r.2)
    | _ => none

def pass (children : α → List α) (act : σ → α → Except (Exit ρ) σ) :
    Nat → List α → (α → Option Nat) → σ → Except (Exit ρ) σ
  | _, [], _, s => .ok s
  | 0, _ :: _, _, _ => .error .outOfFuel
  | fuel + 1, node :: queue, parents, s => do
    let s ← act s node
    match release (children node) parents with
    | none => .error .panic
    | some (parents, released) => pass children act fuel (queue ++ released) parents s

/-- The nodes in the order they are taken. -/
def order (children : α → List α) (nodes queue : List α) (parents : α → Option Nat) : List α :=
  let act : List α → α → Except (Exit Unit) (List α) := fun taken node => .ok (taken ++ [node])
  match pass children act nodes.length queue parents [] with
  | .ok taken => taken
  | .error _ => []

end Pass

section Counted

variable {α : Type} [DecidableEq α]

/-- The number of parents of `c` that have not been taken. -/
def left (nodes : List α) (children : α → List α) (taken : List α) (c : α) : Nat :=
  nodes.countP fun a => a ∉ taken ∧ c ∈ children a

structure Counted (nodes : List α) (children : α → List α) (taken queue : List α) (parents : α → Option Nat) : Prop where
  nodup : (taken ++ queue).Nodup
  known : ∀ a ∈ taken ++ queue, a ∈ nodes
  counter : ∀ c ∈ nodes, parents c = some (left nodes children taken c)
  ready : ∀ c ∈ nodes, c ∈ taken ++ queue ↔ left nodes children taken c = 0

variable {nodes : List α} {children : α → List α}

theorem countP_split {p : α → Bool} {node : α} (hnodes : nodes.Nodup) (hnode : node ∈ nodes) :
    nodes.countP p = nodes.countP (fun a => p a && decide (a ≠ node)) + if p node then 1 else 0 := by
  rw [(List.perm_cons_erase hnode).countP_eq p, List.countP_cons, hnodes.erase_eq_filter, List.countP_filter]
  congr 2
  funext a
  by_cases ha : a = node <;> simp [ha]

/-- Taking a node takes one parent from each of its children. -/
theorem left_concat {taken : List α} {node : α} (hnodes : nodes.Nodup) (hnode : node ∈ nodes) (hnew : node ∉ taken) (c : α) :
    left nodes children taken c = left nodes children (taken ++ [node]) c + if c ∈ children node then 1 else 0 := by
  rw [left, countP_split hnodes hnode, left]
  congr 1
  · refine congrArg (fun p => nodes.countP p) (funext fun a => ?_)
    by_cases ha : a = node <;> simp [ha]
  · simp [hnew]

/-- Every child has a counter above 0: the counters drop by one, the children left at 0 come out. -/
theorem release_eq {n : α → Nat} {l : List α} : ∀ {parents : α → Option Nat}, l.Nodup →
    (∀ c ∈ l, parents c = some (n c + 1)) →
    ∃ parents', release l parents = some (parents', l.filter (n · = 0)) ∧
      ∀ c, parents' c = if c ∈ l then some (n c) else parents c := by
  induction l with
  | nil => exact fun {parents} _ _ => ⟨parents, rfl, fun c => by simp⟩
  | cons child rest ih =>
    intro parents hl h
    obtain ⟨hnot, hrest⟩ := List.nodup_cons.mp hl
    have hothers : ∀ c ∈ rest, Function.update parents child (some (n child)) c = some (n c + 1) := by
      intro c hc
      have hne : c ≠ child := fun heq => hnot (heq ▸ hc)
      rw [Function.update_of_ne hne]
      exact h c (List.mem_cons_of_mem _ hc)
    obtain ⟨parents', hrelease, hcounters⟩ := ih hrest hothers
    refine ⟨parents', ?_, fun c => ?_⟩
    · rw [release, h child List.mem_cons_self]
      simp only [hrelease, Option.map_some, List.filter_cons, decide_eq_true_eq]
    · rw [hcounters]
      by_cases hc : c = child
      · subst hc
        simp [hnot]
      · simp [hc]

end Counted

section Run

variable {α : Type} [DecidableEq α] {nodes : List α} {children : α → List α}

/-- The step: the node at the head of the queue is taken. -/
theorem Counted.take {taken queue : List α} {node : α} {parents : α → Option Nat} (hnodes : nodes.Nodup)
    (hchildren : ∀ a ∈ nodes, (children a).Nodup ∧ ∀ c ∈ children a, c ∈ nodes)
    (h : Counted nodes children taken (node :: queue) parents) :
    ∃ parents' released, release (children node) parents = some (parents', released) ∧
      Counted nodes children (taken ++ [node]) (queue ++ released) parents' := by
  have hnode : node ∈ nodes := h.known node (by simp)
  have hnew : node ∉ taken := fun hmem => (List.nodup_append.mp h.nodup).2.2 node hmem node (by simp) rfl
  have hleft := @left_concat _ _ _ children _ _ hnodes hnode hnew
  obtain ⟨hkids, hin⟩ := hchildren node hnode
  have hone : ∀ c ∈ children node, parents c = some (left nodes children (taken ++ [node]) c + 1) := by
    intro c hc
    rw [h.counter c (hin c hc), hleft, if_pos hc]
  obtain ⟨parents', hrelease, hcounters⟩ := release_eq hkids hone
  have hmem : ∀ c, c ∈ (taken ++ [node]) ++ (queue ++ (children node).filter (left nodes children (taken ++ [node]) · = 0)) ↔
      c ∈ taken ++ node :: queue ∨ c ∈ children node ∧ left nodes children (taken ++ [node]) c = 0 := by
    intro c
    simp only [List.mem_append, List.mem_cons, List.mem_filter, decide_eq_true_eq]
    tauto
  refine ⟨parents', _, hrelease, ?_, ?_, ?_, ?_⟩
  · -- a child that is released had a parent left, so that it was in neither list
    rw [← List.append_assoc, List.nodup_append]
    refine ⟨by simpa using h.nodup, hkids.filter _, fun a ha c hc heq => ?_⟩
    subst heq
    obtain ⟨hc, -⟩ := List.mem_filter.mp hc
    have hzero := (h.ready a (hin a hc)).mp (by simpa using ha)
    rw [hleft, if_pos hc] at hzero
    cases hzero
  · intro a ha
    rcases (hmem a).mp ha with ha | ha
    · exact h.known a ha
    · exact hin a ha.1
  · intro c hc
    rw [hcounters]
    split
    · rfl
    · rename_i hnot
      rw [h.counter c hc, hleft, if_neg hnot, Nat.add_zero]
  · intro c hc
    rw [hmem, h.ready c hc, hleft]
    by_cases hkid : c ∈ children node <;> simp [hkid]

theorem Counted.length_le {taken queue : List α} {parents : α → Option Nat} (h : Counted nodes children taken queue parents) :
    (taken ++ queue).length ≤ nodes.length := (List.subperm_of_subset h.nodup h.known).length_le

/-- The nodes taken do not depend on the action. -/
theorem Counted.pass_eq {taken queue : List α} {parents : α → Option Nat} (hnodes : nodes.Nodup)
    (hchildren : ∀ a ∈ nodes, (children a).Nodup ∧ ∀ c ∈ children a, c ∈ nodes)
    (h : Counted nodes children taken queue parents) :
    ∃ rest, (taken ++ rest).Nodup ∧ (∀ a ∈ rest, a ∈ nodes) ∧
      ∀ (σ ρ : Type) (act : σ → α → Except (Exit ρ) σ) (s : σ) (fuel : Nat), nodes.length ≤ fuel + taken.length →
        pass children act fuel queue parents s = rest.foldlM act s := by
  -- induction on the number of nodes not yet taken
  obtain ⟨k, hk⟩ : ∃ k, k + taken.length = nodes.length :=
    ⟨nodes.length - taken.length, Nat.sub_add_cancel (Nat.le_trans (by simp) h.length_le)⟩
  induction k generalizing taken queue parents with
  | zero =>
    cases queue with
    | nil => exact ⟨[], by simpa using h.nodup, nofun, fun _ _ act s fuel _ => by rw [pass]; rfl⟩
    | cons node queue =>
      have := h.length_le
      simp only [List.length_append, List.length_cons] at this
      omega
  | succ k ih =>
    cases queue with
    | nil => exact ⟨[], by simpa using h.nodup, nofun, fun _ _ act s fuel _ => by rw [pass]; rfl⟩
    | cons node queue =>
      obtain ⟨parents', released, hrelease, hnext⟩ := h.take hnodes hchildren
      obtain ⟨rest, hnodup, hknown, hrest⟩ := ih hnext (by simp only [List.length_append, List.length_singleton]; omega)
      refine ⟨node :: rest, by simpa using hnodup, ?_, ?_⟩
      · intro a ha
        rcases List.mem_cons.mp ha with rfl | ha
        · exact h.known a (by simp)
        · exact hknown a ha
      · intro σ ρ act s fuel hfuel
        obtain ⟨fuel, rfl⟩ : ∃ f, fuel = f + 1 := ⟨fuel - 1, by omega⟩
        rw [pass, List.foldlM_cons]
        refine congrArg (act s node >>= ·) (funext fun s' => ?_)
        simp only [hrelease]
        exact hrest σ ρ act s' fuel (by simp only [List.length_append, List.length_singleton]; omega)

omit [DecidableEq α] in
theorem foldlM_append_singleton {ρ : Type} (l taken : List α) :
    l.foldlM (fun taken node => (Except.ok (taken ++ [node]) : Except (Exit ρ) (List α))) taken = .ok (taken ++ l) := by
  induction l generalizing taken with
  | nil =>
    rw [List.append_nil]
    rfl
  | cons node l ih =>
    rw [List.foldlM_cons]
    exact (ih (taken ++ [node])).trans (by rw [List.append_assoc, List.singleton_append])

/-- From counters that are right at the start, the pass is a fold over `order`. -/
theorem Counted.pass_eq_order {queue : List α} {parents : α → Option Nat} (hnodes : nodes.Nodup)
    (hchildren : ∀ a ∈ nodes, (children a).Nodup ∧ ∀ c ∈ children a, c ∈ nodes)
    (h : Counted nodes children [] queue parents) :
    (order children nodes queue parents).Nodup ∧ (∀ a ∈ order children nodes queue parents, a ∈ nodes) ∧
      ∀ (σ ρ : Type) (act : σ → α → Except (Exit ρ) σ) (s : σ) (fuel : Nat), nodes.length ≤ fuel →
        pass children act fuel queue parents s = (order children nodes queue parents).foldlM act s := by
  obtain ⟨rest, hnodup, hknown, hrest⟩ := h.pass_eq hnodes hchildren
  have horder : order children nodes queue parents = rest := by
    rw [order, hrest _ _ _ _ _ (by simp), foldlM_append_singleton, List.nil_append]
  rw [horder]
  exact ⟨hnodup, hknown, fun σ ρ act s fuel hfuel => hrest σ ρ act s fuel hfuel⟩

end Run

end Kahn
end Lib
