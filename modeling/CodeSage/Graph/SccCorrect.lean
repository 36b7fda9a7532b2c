import CodeSage.Graph.SccSearch
import CodeSage.Lib.Assoc
import Mathlib.Data.List.Dedup

/-!
# CodeSage.Graph.SccCorrect

`tarjan_scc` returns the strongly connected components of the graph its edges describe, in reverse
topological order, if an `i32` can count the nodes.

`SccSearch` gives the result for the node numbers; here it is carried over to the names.
-/

namespace CodeSage
namespace Graph
namespace Scc

open Lib
open Tarjan (St)

/-- The nodes of an edge list. -/
def Occurs (edges : Edges) (x : String) : Prop := ∃ e ∈ edges, x = e.1 ∨ x = e.2

/-- There is a path along the edges, perhaps of no edge. -/
def Reaches (edges : Edges) : String → String → Prop :=
  Relation.ReflTransGen fun x y => (x, y) ∈ edges

/-- Every node is in one component; the members of a component reach each other, and nothing else
that reaches them back; no component leads to a later one. -/
structure Components (edges : Edges) (comps : List (List String)) : Prop where
  nodup : comps.flatten.Nodup
  members : ∀ x, x ∈ comps.flatten ↔ Occurs edges x
  nonempty : ∀ C ∈ comps, C ≠ []
  same : ∀ C ∈ comps, ∀ a ∈ C, ∀ b, b ∈ C ↔ Reaches edges a b ∧ Reaches edges b a
  ordered : comps.Pairwise fun C D => ∀ a ∈ C, ∀ b ∈ D, ¬ Reaches edges a b

section Numbering

/-- The table of names numbers each name by its place in `nodes`. -/
structure Names.Ok (t : Names) : Prop where
  nodup : t.nodes.Nodup
  lookup : ∀ n, t.idxOf.lookup n = if n ∈ t.nodes then some (t.nodes.idxOf n) else none

variable {t : Names}

theorem Names.Ok.mem (h : t.Ok) {n : String} : n ∈ t.idxOf ↔ n ∈ t.nodes := by
  rw [mem_iff_lookup, h.lookup n]
  split <;> simp_all

theorem Names.Ok.add (h : t.Ok) (n : String) : (t.add n).Ok := by
  unfold Names.add
  split
  · exact h
  · rename_i hn
    rw [h.mem] at hn
    refine ⟨?_, fun m => ?_⟩
    · refine List.nodup_append.mpr ⟨h.nodup, List.nodup_singleton n, fun a ha b hb => ?_⟩
      rw [List.mem_singleton.mp hb]
      rintro rfl
      exact hn ha
    · rw [lookup_insert, h.lookup m]
      by_cases hm : m = n
      · subst hm
        simp [List.idxOf_append_of_notMem hn]
      · by_cases hm' : m ∈ t.nodes
        · simp [hm, hm', List.idxOf_append_of_mem hm']
        · simp [hm, hm']

theorem Names.Ok.mem_add (h : t.Ok) {n x : String} : x ∈ (t.add n).nodes ↔ x ∈ t.nodes ∨ x = n := by
  unfold Names.add
  split
  · rename_i hn
    rw [h.mem] at hn
    constructor
    · exact .inl
    · rintro (hx | rfl)
      · exact hx
      · exact hn
  · simp

theorem collect_from (edges : Edges) {t : Names} (h : t.Ok) :
    (edges.foldl (fun t e => (t.add e.1).add e.2) t).Ok ∧
      ∀ x, x ∈ (edges.foldl (fun t e => (t.add e.1).add e.2) t).nodes ↔ x ∈ t.nodes ∨ Occurs edges x := by
  induction edges generalizing t with
  | nil => exact ⟨h, fun x => by simp [Occurs]⟩
  | cons e edges ih =>
    have h₁ := h.add e.1
    obtain ⟨hok, hmem⟩ := ih (h₁.add e.2)
    refine ⟨hok, fun x => (hmem x).trans ?_⟩
    rw [h₁.mem_add, h.mem_add]
    simp only [Occurs, List.mem_cons, exists_eq_or_imp, or_assoc]

theorem collect_ok (edges : Edges) : (collect edges).Ok :=
  (collect_from edges ⟨List.nodup_nil, fun n => by simp⟩).1

theorem mem_collect {edges : Edges} {x : String} : x ∈ (collect edges).nodes ↔ Occurs edges x := by
  have := (collect_from edges (t := {}) ⟨List.nodup_nil, fun n => by simp⟩).2 x
  simpa [collect] using this

variable {nodes : List String}

theorem nameOf_idxOf {x : String} (hx : x ∈ nodes) : nameOf nodes (nodes.idxOf x) = x := by
  simp [nameOf, List.getElem?_idxOf hx]

theorem idxOf_nameOf (hnodup : nodes.Nodup) {v : Nat} (hv : v < nodes.length) :
    nodes.idxOf (nameOf nodes v) = v := by
  simp [nameOf, List.getElem?_eq_getElem hv, hnodup.idxOf_getElem]

theorem nameOf_mem {v : Nat} (hv : v < nodes.length) : nameOf nodes v ∈ nodes := by
  simp [nameOf, List.getElem?_eq_getElem hv]

/-- The adjacency lists hold the numbers of the edges. -/
theorem adjacency_from (hok : t.Ok) (edges : Edges) (hin : ∀ x, Occurs edges x → x ∈ t.nodes)
    (adj : Vec (List Nat)) (hlen : adj.len = t.nodes.length) :
    ∃ adj', edges.foldlM (fun (adj : Vec (List Nat)) e => do
        let u ← t.idxOf.lookup e.1
        let v ← t.idxOf.lookup e.2
        let out ← adj.get? u
        adj.set? u (out ++ [v])) adj = some adj' ∧ adj'.len = t.nodes.length ∧
      ∀ u w, w ∈ adj'.get u ↔ w ∈ adj.get u ∨
        ∃ e ∈ edges, u = t.nodes.idxOf e.1 ∧ w = t.nodes.idxOf e.2 := by
  induction edges generalizing adj with
  | nil => exact ⟨adj, rfl, hlen, by simp⟩
  | cons e edges ih =>
    have h₁ : e.1 ∈ t.nodes := hin e.1 ⟨e, by simp, .inl rfl⟩
    have h₂ : e.2 ∈ t.nodes := hin e.2 ⟨e, by simp, .inr rfl⟩
    have hu : t.nodes.idxOf e.1 < adj.len := by rw [hlen]; exact List.idxOf_lt_length_iff.mpr h₁
    obtain ⟨adj', hrun, hlen', hmem⟩ := ih
      (fun x ⟨e', he', hx⟩ => hin x ⟨e', List.mem_cons_of_mem _ he', hx⟩)
      ⟨adj.len, Function.update adj.get (t.nodes.idxOf e.1)
        (adj.get (t.nodes.idxOf e.1) ++ [t.nodes.idxOf e.2])⟩ hlen
    refine ⟨adj', ?_, hlen', fun u w => (hmem u w).trans ?_⟩
    · have hl₁ : t.idxOf.lookup e.1 = some (t.nodes.idxOf e.1) := by rw [hok.lookup, if_pos h₁]
      have hl₂ : t.idxOf.lookup e.2 = some (t.nodes.idxOf e.2) := by rw [hok.lookup, if_pos h₂]
      rw [List.foldlM_cons]
      simp only [hl₁, hl₂, Vec.get?_eq hu, Vec.set?_eq hu, Option.bind_eq_bind, Option.bind_some]
      exact hrun
    · by_cases hu' : u = t.nodes.idxOf e.1
      · subst hu'
        simp only [Function.update_self, List.mem_append, List.mem_cons, exists_eq_or_imp, true_and]
        tauto
      · simp only [Function.update_of_ne hu', List.mem_cons, exists_eq_or_imp, hu', false_and, false_or]

/-- `adj` lists the edges under the numbers of the names. -/
structure Numbers (edges : Edges) (nodes : List String) (adj : Vec (List Nat)) : Prop where
  nodup : nodes.Nodup
  occurs : ∀ x, x ∈ nodes ↔ Occurs edges x
  bounded : Bounded nodes adj
  edge : ∀ u w, u < nodes.length → (w ∈ adj.get u ↔ w < nodes.length ∧
    (nameOf nodes u, nameOf nodes w) ∈ edges)

theorem adjacency_numbers (edges : Edges) : ∃ adj, adjacency (collect edges) edges = some adj ∧
    Numbers edges (collect edges).nodes adj := by
  have hok := collect_ok edges
  have hin : ∀ x, Occurs edges x → x ∈ (collect edges).nodes := fun x => mem_collect.mpr
  obtain ⟨adj, hrun, hlen, hmem⟩ := adjacency_from hok edges hin
    (Vec.fill (collect edges).nodes.length []) rfl
  have hlt : ∀ x, Occurs edges x → (collect edges).nodes.idxOf x < (collect edges).nodes.length :=
    fun x hx => List.idxOf_lt_length_iff.mpr (hin x hx)
  have hmem : ∀ u w, w ∈ adj.get u ↔ ∃ e ∈ edges, u = (collect edges).nodes.idxOf e.1 ∧
      w = (collect edges).nodes.idxOf e.2 := fun u w => (hmem u w).trans (by simp [Vec.fill])
  refine ⟨adj, hrun, hok.nodup, fun x => mem_collect, ⟨hlen, fun v w hw => ?_⟩, fun u w hu => ?_⟩
  · obtain ⟨e, he, -, rfl⟩ := (hmem v w).mp hw
    exact hlt e.2 ⟨e, he, .inr rfl⟩
  · rw [hmem]
    constructor
    · rintro ⟨e, he, rfl, rfl⟩
      have h₁ : Occurs edges e.1 := ⟨e, he, .inl rfl⟩
      have h₂ : Occurs edges e.2 := ⟨e, he, .inr rfl⟩
      rw [nameOf_idxOf (hin _ h₁), nameOf_idxOf (hin _ h₂)]
      exact ⟨hlt _ h₂, he⟩
    · rintro ⟨hw, he⟩
      exact ⟨_, he, (idxOf_nameOf hok.nodup hu).symm, (idxOf_nameOf hok.nodup hw).symm⟩

variable {edges : Edges} {adj : Vec (List Nat)}

theorem Numbers.reaches (h : Numbers edges nodes adj) {u w : Nat} (hu : u < nodes.length)
    (hr : Tarjan.Reach adj.get u w) :
    w < nodes.length ∧ Reaches edges (nameOf nodes u) (nameOf nodes w) := by
  induction hr with
  | refl => exact ⟨hu, .refl⟩
  | tail _ he ih =>
    obtain ⟨hw, hedge⟩ := (h.edge _ _ ih.1).mp he
    exact ⟨hw, ih.2.tail hedge⟩

theorem Numbers.reach (h : Numbers edges nodes adj) {a b : String} (ha : a ∈ nodes)
    (hr : Reaches edges a b) : b ∈ nodes ∧ Tarjan.Reach adj.get (nodes.idxOf a) (nodes.idxOf b) := by
  induction hr with
  | refl => exact ⟨ha, .refl⟩
  | @tail b c _ he ih =>
    have hc : c ∈ nodes := (h.occurs c).mpr ⟨_, he, .inr rfl⟩
    refine ⟨hc, ih.2.tail ((h.edge _ _ (List.idxOf_lt_length_iff.mpr ih.1)).mpr ?_)⟩
    rw [nameOf_idxOf ih.1, nameOf_idxOf hc]
    exact ⟨List.idxOf_lt_length_iff.mpr hc, he⟩

/-- On the nodes, paths between names are paths between numbers. -/
theorem Numbers.reach_iff (h : Numbers edges nodes adj) {u w : Nat} (hu : u < nodes.length)
    (hw : w < nodes.length) :
    Reaches edges (nameOf nodes u) (nameOf nodes w) ↔ Tarjan.Reach adj.get u w := by
  constructor
  · intro hr
    have := (h.reach (nameOf_mem hu) hr).2
    rwa [idxOf_nameOf h.nodup hu, idxOf_nameOf h.nodup hw] at this
  · exact fun hr => (h.reaches hu hr).2

end Numbering

/-- A finished search that has seen every node: its components, under their names. -/
theorem Numbers.components {edges : Edges} {nodes : List String} {adj : Vec (List Nat)} {s : St Nat}
    (h : Numbers edges nodes adj) (hi : Tarjan.Inv adj.get s) (hwork : s.work = [])
    (hbound : ∀ v ∈ s.order, v < nodes.length) (hall : ∀ v < nodes.length, v ∈ s.order) :
    Components edges (s.comps.map fun C => C.map (nameOf nodes)) := by
  have hflat : ∀ v, v ∈ s.comps.flatten ↔ v < nodes.length := by
    intro v
    rw [hi.comps_mem, hi.stack_empty hwork]
    exact ⟨fun hv => hbound v hv.1, fun hv => ⟨hall v hv, by simp⟩⟩
  have hlt : ∀ C ∈ s.comps, ∀ v ∈ C, v < nodes.length :=
    fun C hC v hv => (hflat v).mp (List.mem_flatten.mpr ⟨C, hC, hv⟩)
  have hinj : ∀ u < nodes.length, ∀ w < nodes.length, nameOf nodes u = nameOf nodes w → u = w := by
    intro u hu w hw he
    rw [← idxOf_nameOf h.nodup hu, he, idxOf_nameOf h.nodup hw]
  have hflatten : (s.comps.map fun C => C.map (nameOf nodes)).flatten =
      s.comps.flatten.map (nameOf nodes) := by
    rw [List.map_flatten]
  refine ⟨?_, fun x => ?_, ?_, ?_, ?_⟩
  · rw [hflatten]
    refine List.Nodup.map_on (fun u hu w hw he => ?_) hi.sound.nodup
    exact hinj u ((hflat u).mp hu) w ((hflat w).mp hw) he
  · rw [hflatten, List.mem_map, ← h.occurs]
    constructor
    · rintro ⟨v, hv, rfl⟩
      exact nameOf_mem ((hflat v).mp hv)
    · intro hx
      exact ⟨nodes.idxOf x, (hflat _).mpr (List.idxOf_lt_length_iff.mpr hx), nameOf_idxOf hx⟩
  · intro C hC
    obtain ⟨C', hC', rfl⟩ := List.mem_map.mp hC
    simpa using hi.sound.nonempty C' hC'
  · intro C hC a ha b
    obtain ⟨C', hC', rfl⟩ := List.mem_map.mp hC
    obtain ⟨u, hu, rfl⟩ := List.mem_map.mp ha
    have hu' := hlt C' hC' u hu
    constructor
    · intro hb
      obtain ⟨w, hw, rfl⟩ := List.mem_map.mp hb
      have hw' := hlt C' hC' w hw
      rw [h.reach_iff hu' hw', h.reach_iff hw' hu']
      exact (hi.sound.scc C' hC' u hu w).mp hw
    · rintro ⟨hab, hba⟩
      obtain ⟨hb, hr⟩ := h.reach (nameOf_mem hu') hab
      have hr' := (h.reach hb hba).2
      rw [idxOf_nameOf h.nodup hu'] at hr hr'
      exact List.mem_map.mpr ⟨_, (hi.sound.scc C' hC' u hu _).mpr ⟨hr, hr'⟩, nameOf_idxOf hb⟩
  · rw [List.pairwise_map]
    refine hi.sound.ordered.imp_of_mem fun {C D} hC hD hCD a ha b hb hr => ?_
    obtain ⟨u, hu, rfl⟩ := List.mem_map.mp ha
    obtain ⟨w, hw, rfl⟩ := List.mem_map.mp hb
    exact hCD u hu w hw ((h.reach_iff (hlt C hC u hu) (hlt D hD w hw)).mp hr)

/-- The three ways a run can end. -/
theorem tarjanScc_ends (edges : Edges) : ∃ bound, ∀ fuel,
    (∃ comps, tarjanScc fuel edges = .ok comps ∧ Components edges comps ∧
      ((collect edges).nodes.length : Int) ≤ i32Max) ∨
    (tarjanScc fuel edges = .error .outOfFuel ∧ fuel < bound) ∨
    (tarjanScc fuel edges = .error .panicked ∧ i32Max < ((collect edges).nodes.length : Int)) := by
  obtain ⟨adj, hadj, hnum⟩ := adjacency_numbers edges
  refine ⟨Tarjan.cost adj.get (Finset.range (collect edges).nodes.length)
    ⟨[], fun _ => 0, [], [], []⟩, fun fuel => ?_⟩
  have hends := Refines.visits hnum.bounded fuel (List.range (collect edges).nodes.length)
    (Refines.init (collect edges).nodes) (Tarjan.Inv.init _) rfl (by simp)
  simp only [tarjanScc, hadj]
  cases hr : (List.range (collect edges).nodes.length).foldlM
      (visit fuel adj (collect edges).nodes) (Search.init (collect edges).nodes.length) with
  | error e =>
    rw [hr] at hends
    cases e with
    | outOfFuel => exact .inr (.inl ⟨rfl, hends⟩)
    | panicked => exact .inr (.inr ⟨rfl, hends⟩)
  | ok d =>
    rw [hr] at hends
    obtain ⟨s, h, hi, hwork, -, hall, -⟩ := hends
    refine .inl ⟨d.components, rfl, ?_, ?_⟩
    · rw [h.components]
      exact hnum.components hi hwork h.bound fun v hv => hall v (List.mem_range.mpr hv)
    · -- every node has been counted
      have hsub : List.range (collect edges).nodes.length ⊆ s.order := hall
      have hlen := (List.nodup_range.subperm hsub).length_le
      have hroom := h.room
      rw [h.counter] at hroom
      simp only [List.length_range] at hlen
      omega

theorem tarjanScc_more {fuel fuel' : Nat} (hle : fuel ≤ fuel') {edges : Edges}
    (h : tarjanScc fuel edges ≠ .error .outOfFuel) :
    tarjanScc fuel' edges = tarjanScc fuel edges := by
  unfold tarjanScc at h ⊢
  cases hadj : adjacency (collect edges) edges with
  | none => simp only [hadj]
  | some adj =>
    simp only [hadj] at h ⊢
    rw [visits_more hle]
    intro he
    rw [he] at h
    exact h rfl

/-- The number of different nodes. -/
def nodeCount (edges : Edges) : Nat := (edges.flatMap fun e => [e.1, e.2]).dedup.length

theorem collect_length (edges : Edges) : (collect edges).nodes.length = nodeCount edges := by
  refine List.Perm.length_eq ((List.perm_ext_iff_of_nodup (collect_ok edges).nodup
    (List.nodup_dedup _)).mpr fun x => ?_)
  rw [mem_collect, List.mem_dedup, List.mem_flatMap]
  simp [Occurs]

/-- The search ends, and finds the strongly connected components, if there are fewer than `2 ^ 31`
nodes: `index_counter` is incremented once for each. -/
theorem tarjan_scc_correct (edges : Edges) (hcount : nodeCount edges < 2 ^ 31) :
    ∃ comps, Components edges comps ∧ ∃ bound, ∀ fuel ≥ bound, tarjanScc fuel edges = .ok comps := by
  obtain ⟨bound, hends⟩ := tarjanScc_ends edges
  rw [collect_length] at hends
  rcases hends bound with ⟨comps, hrun, hcomps, -⟩ | ⟨-, hlt⟩ | ⟨-, hfull⟩
  · refine ⟨comps, hcomps, bound, fun fuel hle => ?_⟩
    rw [← hrun]
    exact tarjanScc_more hle (by rw [hrun]; simp)
  · exact absurd hlt (Nat.lt_irrefl _)
  · simp only [i32Max] at hfull
    omega

theorem tarjan_scc_correct_two : nodeCount [("a", "b"), ("b", "b")] < 2 ^ 31 ∧
    ∃ comps, Components [("a", "b"), ("b", "b")] comps ∧ ∃ bound, ∀ fuel ≥ bound,
      tarjanScc fuel [("a", "b"), ("b", "b")] = .ok comps :=
  ⟨by decide, tarjan_scc_correct _ (by decide)⟩

/-- `2 ^ 31` files, each importing itself. -/
def selfImports : Edges := (List.range (2 ^ 31)).map fun i => (Nat.repr i, Nat.repr i)

theorem repr_injective : Function.Injective Nat.repr := by
  intro i j h
  have := congrArg (fun s => Nat.ofDigitChars 10 s.toList 0) h
  simpa [Nat.toList_repr, Nat.ofDigitChars_ten_toDigits] using this

theorem selfImports_count : 2 ^ 31 ≤ nodeCount selfImports := by
  have hnodup : ((List.range (2 ^ 31)).map Nat.repr).Nodup := List.nodup_range.map repr_injective
  have hsub : (List.range (2 ^ 31)).map Nat.repr ⊆
      (selfImports.flatMap fun e => [e.1, e.2]).dedup := by
    intro x hx
    obtain ⟨i, hi, rfl⟩ := List.mem_map.mp hx
    rw [List.mem_dedup, List.mem_flatMap]
    exact ⟨_, List.mem_map.mpr ⟨i, hi, rfl⟩, List.mem_cons_self ..⟩
  have := (hnodup.subperm hsub).length_le
  rwa [List.length_map, List.length_range] at this

/-- One node more and the counter overflows. -/
theorem selfImports_panic : ∃ bound, ∀ fuel ≥ bound, tarjanScc fuel selfImports = .error .panicked := by
  obtain ⟨bound, hends⟩ := tarjanScc_ends selfImports
  rw [collect_length] at hends
  refine ⟨bound, fun fuel hle => ?_⟩
  have hcount := selfImports_count
  rcases hends fuel with ⟨comps, -, -, hroom⟩ | ⟨-, hlt⟩ | ⟨hrun, -⟩
  · simp only [i32Max] at hroom
    omega
  · omega
  · exact hrun

end Scc
end Graph
end CodeSage
