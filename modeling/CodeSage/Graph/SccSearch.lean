import CodeSage.Graph.Scc
import CodeSage.Lib.Tarjan

/-!
# CodeSage.Graph.SccSearch

The search of `tarjan_scc` follows the transition system of `Lib.Tarjan`.

`Refines` relates the program's vectors to a state there. Each iteration of the loop is one step,
unless the `i32` counter is exhausted; so a whole run inherits the invariant and the bound on the
number of iterations (`Refines.visits`).
-/

namespace CodeSage
namespace Graph
namespace Scc

open Lib
open Tarjan (St)

/-- The name of a node number. -/
def nameOf (nodes : List String) (v : Nat) : String := nodes[v]?.getD ""

structure Refines (nodes : List String) (d : Search) (s : St Nat) : Prop where
  index_len : d.index.len = nodes.length
  lowlink_len : d.lowlink.len = nodes.length
  onStack_len : d.onStack.len = nodes.length
  index : ∀ v, d.index.get v = if v ∈ s.order then (s.idx v : Int) else unvisited
  lowlink : ∀ v, d.lowlink.get v = s.low v
  onStack : ∀ v, d.onStack.get v = decide (v ∈ s.stack)
  stack : d.stack = s.stack
  work : d.work = s.work
  counter : d.indexCounter = s.order.length
  room : d.indexCounter ≤ i32Max
  components : d.components = s.comps.map fun C => C.map (nameOf nodes)
  bound : ∀ v ∈ s.order, v < nodes.length

section

variable {nodes : List String} {d : Search} {s : St Nat}

theorem Refines.init (nodes : List String) :
    Refines nodes (Search.init nodes.length) ⟨[], fun _ => 0, [], [], []⟩ where
  index_len := rfl
  lowlink_len := rfl
  onStack_len := rfl
  index _ := by simp [Search.init, Vec.fill]
  lowlink _ := rfl
  onStack _ := by simp [Search.init, Vec.fill]
  stack := rfl
  work := rfl
  counter := rfl
  room := by simp [Search.init, i32Max]
  components := rfl
  bound := by simp

/-- A node is numbered, unless the counter is exhausted. -/
theorem Refines.discover (h : Refines nodes d s) {w : Nat} (hw : w < nodes.length)
    (hnew : w ∉ s.order) :
    (∃ d', d.discover w = some d' ∧ Refines nodes d' (s.push s.work w)) ∨
      d.discover w = none ∧ i32Max ≤ (s.order.length : Int) := by
  have hi : w < d.index.len := by rw [h.index_len]; exact hw
  have hl : w < d.lowlink.len := by rw [h.lowlink_len]; exact hw
  have ho : w < d.onStack.len := by rw [h.onStack_len]; exact hw
  by_cases hroom : d.indexCounter + 1 ≤ i32Max
  · left
    have heq : d.discover w = some { d with
        index := { d.index with get := Function.update d.index.get w d.indexCounter }
        lowlink := { d.lowlink with get := Function.update d.lowlink.get w d.indexCounter }
        indexCounter := d.indexCounter + 1
        stack := w :: d.stack
        onStack := { d.onStack with get := Function.update d.onStack.get w true }
        work := (w, 0) :: d.work } := by
      simp [Search.discover, Vec.set?_eq hi, Vec.set?_eq hl, Vec.set?_eq ho, i32Succ, hroom]
    refine ⟨_, heq, ?_⟩
    refine ⟨h.index_len, h.lowlink_len, h.onStack_len, ?_, ?_, ?_, by simp [h.stack, St.push],
      by simp [h.work, St.push], ?_, hroom, h.components, ?_⟩
    · intro v
      by_cases hv : v = w
      · subst hv
        rw [Tarjan.push_idx_new hnew, if_pos (by simp [St.push]), ← h.counter]
        exact Function.update_self ..
      · have hupdate : Function.update d.index.get w d.indexCounter v = d.index.get v :=
          Function.update_of_ne hv ..
        refine hupdate.trans ((h.index v).trans ?_)
        by_cases hm : v ∈ s.order
        · rw [if_pos hm, if_pos (by simp [St.push, hm]), Tarjan.push_idx_old hm]
        · rw [if_neg hm, if_neg (by simp [St.push, hm, hv])]
    · intro v
      by_cases hv : v = w
      · subst hv
        simp only [Function.update_self, St.push]
        exact h.counter
      · simp only [Function.update_of_ne hv, St.push]
        exact h.lowlink v
    · intro v
      by_cases hv : v = w
      · subst hv; simp [St.push]
      · simp only [Function.update_of_ne hv, h.onStack v, St.push, List.mem_cons, hv, false_or]
    · simp [h.counter, St.push]
    · intro v hv
      rcases List.mem_append.mp hv with hv | hv
      · exact h.bound v hv
      · rw [List.mem_singleton.mp hv]; exact hw
  · right
    refine ⟨?_, by rw [← h.counter]; omega⟩
    simp [Search.discover, Vec.set?_eq hi, Vec.set?_eq hl, i32Succ, hroom]

/-- Popping the stack down to `v`: the names come off in stack order. -/
theorem popComponent_eq {v : Nat} (below above : List Nat) (hv : v ∉ above)
    (hbound : ∀ x ∈ above ++ [v], x < nodes.length) :
    ∀ (on : Vec Bool) (component : List String), on.len = nodes.length →
      ∃ on', Search.popComponent nodes v (above ++ v :: below) on component =
          some (below, on', component ++ (above ++ [v]).map (nameOf nodes)) ∧
        on'.len = on.len ∧ ∀ x, on'.get x = if x ∈ above ++ [v] then false else on.get x := by
  have hname : ∀ x, x < nodes.length → nodes[x]? = some (nameOf nodes x) := by
    intro x hx
    simp [nameOf, List.getElem?_eq_getElem hx]
  induction above with
  | nil =>
    intro on component hlen
    have hv' : v < nodes.length := hbound v (by simp)
    refine ⟨{ on with get := Function.update on.get v false }, ?_, rfl, ?_⟩
    · simp [Search.popComponent, Vec.set?_eq (show v < on.len by rw [hlen]; exact hv'), hname v hv']
    · intro x
      by_cases hx : x = v
      · subst hx; simp
      · simp [hx]
  | cons a above ih =>
    intro on component hlen
    simp only [List.mem_cons, not_or] at hv
    have ha : a < nodes.length := hbound a (by simp)
    obtain ⟨on', heq, hlen', hget⟩ := ih hv.2 (fun x hx => hbound x (List.mem_cons_of_mem _ hx))
      { on with get := Function.update on.get a false } (component ++ [nameOf nodes a]) hlen
    refine ⟨on', ?_, hlen', ?_⟩
    · simp only [List.cons_append, Search.popComponent,
        Vec.set?_eq (show a < on.len by rw [hlen]; exact ha), hname a ha, Option.bind_eq_bind,
        Option.bind_some, if_neg (Ne.symm hv.1), heq]
      simp
    · intro x
      rw [hget x]
      by_cases hx : x = a
      · subst hx; simp
      · simp [hx]

variable {adj : Vec (List Nat)} {v i : Nat} {rest : List (Nat × Nat)}

/-- One iteration along an edge. -/
theorem Refines.advance (h : Refines nodes d s) (hi : Tarjan.Inv adj.get s)
    (hwork : s.work = (v, i) :: rest) {w : Nat} (hw : (adj.get v)[i]? = some w)
    (hbound : w < nodes.length) :
    (∃ d' s', d.advance v i rest w = some d' ∧ Tarjan.Step adj.get s s' ∧ Refines nodes d' s') ∨
      d.advance v i rest w = none ∧ w ∉ s.order ∧ i32Max ≤ (s.order.length : Int) := by
  have hv : v < nodes.length := h.bound v (hi.stack_seen v (hi.top_stack hwork))
  have hiw : w < d.index.len := by rw [h.index_len]; exact hbound
  have how : w < d.onStack.len := by rw [h.onStack_len]; exact hbound
  have hlv : v < d.lowlink.len := by rw [h.lowlink_len]; exact hv
  have hindex := h.index w
  by_cases hseen : w ∈ s.order
  · left
    rw [if_pos hseen] at hindex
    have hne : ¬ (s.idx w : Int) = unvisited := by simp only [unvisited]; omega
    by_cases hstack : w ∈ s.stack
    · refine ⟨{ d with
          work := (v, i + 1) :: rest
          lowlink := { d.lowlink with
            get := Function.update d.lowlink.get v (min (d.lowlink.get v) (s.idx w)) } }, _, ?_,
        .back hwork hw hseen hstack, ?_⟩
      · simp [Search.advance, Vec.get?_eq hiw, hindex, hne, Vec.get?_eq how, h.onStack w, hstack,
          Vec.get?_eq hlv, Vec.set?_eq hlv]
      · refine ⟨h.index_len, h.lowlink_len, h.onStack_len, h.index, ?_, h.onStack, h.stack, rfl,
          h.counter, h.room, h.components, h.bound⟩
        intro x
        by_cases hx : x = v
        · subst hx
          simp only [Function.update_self, h.lowlink]
          omega
        · simp only [Function.update_of_ne hx]
          exact h.lowlink x
    · refine ⟨{ d with work := (v, i + 1) :: rest }, _, ?_, .cross hwork hw hseen hstack, ?_⟩
      · simp [Search.advance, Vec.get?_eq hiw, hindex, hne, Vec.get?_eq how, h.onStack w, hstack]
      · exact ⟨h.index_len, h.lowlink_len, h.onStack_len, h.index, h.lowlink, h.onStack, h.stack, rfl,
          h.counter, h.room, h.components, h.bound⟩
  · rw [if_neg hseen] at hindex
    have hstep : d.advance v i rest w = ({ d with work := (v, i + 1) :: rest } : Search).discover w := by
      simp [Search.advance, Vec.get?_eq hiw, hindex]
    have hmoved : Refines nodes { d with work := (v, i + 1) :: rest }
        { s with work := (v, i + 1) :: rest } :=
      ⟨h.index_len, h.lowlink_len, h.onStack_len, h.index, h.lowlink, h.onStack, h.stack, rfl,
        h.counter, h.room, h.components, h.bound⟩
    rw [hstep]
    rcases hmoved.discover hbound hseen with ⟨d', hd, hr⟩ | ⟨hd, hfull⟩
    · exact .inl ⟨d', _, hd, .tree hwork hw hseen, hr⟩
    · exact .inr ⟨hd, hseen, hfull⟩

/-- `lowlink` after the parent, if any, has taken over the value of `v`. -/
theorem Refines.fold (h : Refines nodes d s) (hi : Tarjan.Inv adj.get s)
    (hwork : s.work = (v, i) :: rest) (d₁ : Search) (hlow : d₁.lowlink = d.lowlink) :
    ∃ lowlink : Vec Int, lowlink.len = d.lowlink.len ∧
      (∀ x, lowlink.get x = (St.foldLow s.low v rest x : Int)) ∧
      (match rest with
        | [] => some d₁
        | (parent, _) :: _ => do
          let lp ← d₁.lowlink.get? parent
          let lv ← d₁.lowlink.get? v
          let lowlink ← d₁.lowlink.set? parent (min lp lv)
          return { d₁ with lowlink }) = some { d₁ with lowlink := lowlink } := by
  have hv : v < nodes.length := h.bound v (hi.stack_seen v (hi.top_stack hwork))
  cases rest with
  | nil => exact ⟨d.lowlink, rfl, h.lowlink, by rw [← hlow]⟩
  | cons p rest =>
    obtain ⟨p, j⟩ := p
    have hp : p < nodes.length := by
      refine h.bound p (hi.stack_seen p (hi.path_stack p ?_))
      rw [St.path, hwork]; simp
    have hlp : p < d.lowlink.len := by rw [h.lowlink_len]; exact hp
    have hlv : v < d.lowlink.len := by rw [h.lowlink_len]; exact hv
    refine ⟨{ d.lowlink with
      get := Function.update d.lowlink.get p (min (d.lowlink.get p) (d.lowlink.get v)) }, rfl, ?_, ?_⟩
    · intro x
      by_cases hx : x = p
      · subst hx
        simp only [Function.update_self, h.lowlink, St.foldLow]
        omega
      · simp only [Function.update_of_ne hx, St.foldLow]
        exact h.lowlink x
    · simp only [hlow, Vec.get?_eq hlp, Vec.get?_eq hlv, Vec.set?_eq hlp, Option.bind_eq_bind,
        Option.bind_some]
      rfl

/-- The iteration after the last edge never fails. -/
theorem Refines.leave (h : Refines nodes d s) (hi : Tarjan.Inv adj.get s)
    (hwork : s.work = (v, i) :: rest) (hend : (adj.get v).length ≤ i) :
    ∃ d' s', d.leave nodes v rest = some d' ∧ Tarjan.Step adj.get s s' ∧ Refines nodes d' s' := by
  have hvs := hi.top_stack hwork
  have hvo := hi.stack_seen v hvs
  have hv : v < nodes.length := h.bound v hvo
  have hlv : v < d.lowlink.len := by rw [h.lowlink_len]; exact hv
  have hiv : v < d.index.len := by rw [h.index_len]; exact hv
  have hindex : d.index.get v = (s.idx v : Int) := by rw [h.index v, if_pos hvo]
  by_cases hlow : s.low v = s.idx v
  · obtain ⟨above, below, hstack, habove⟩ : ∃ above below, s.stack = above ++ v :: below ∧ v ∉ above := by
      obtain ⟨above, below, hstack⟩ := List.append_of_mem hvs
      refine ⟨above, below, hstack, fun hm => ?_⟩
      have hsorted := hi.stack_sorted
      rw [hstack, List.pairwise_append] at hsorted
      exact Nat.lt_irrefl _ (hsorted.2.2 v hm v (List.mem_cons_self ..))
    have hbound : ∀ x ∈ above ++ [v], x < nodes.length := fun x hx =>
      h.bound x (hi.stack_seen x (Tarjan.segment_stack hstack hx))
    obtain ⟨on, hpop, honlen, honget⟩ := popComponent_eq below above habove hbound d.onStack []
      h.onStack_len
    obtain ⟨lowlink, hlen, hget, hfold⟩ := h.fold hi hwork { d with
      stack := below
      onStack := on
      components := d.components ++ [(above ++ [v]).map (nameOf nodes)]
      work := rest } rfl
    refine ⟨{ d with
      stack := below
      onStack := on
      components := d.components ++ [(above ++ [v]).map (nameOf nodes)]
      work := rest
      lowlink := lowlink }, _, ?_, .emit hwork hend hlow hstack habove, ?_⟩
    · simp only [Search.leave, Vec.get?_eq hlv, Vec.get?_eq hiv, Option.bind_eq_bind, Option.bind_some,
        h.lowlink, hindex, hlow, if_true, h.stack, hstack, hpop, List.nil_append]
      exact hfold
    · refine ⟨h.index_len, hlen.trans h.lowlink_len, honlen.trans h.onStack_len, h.index, hget, ?_, rfl,
        rfl, h.counter, h.room, by simp [h.components], h.bound⟩
      intro x
      have hnodup : s.stack.Nodup := hi.stack_sorted.imp fun hlt he => by
        rw [he] at hlt; exact Nat.lt_irrefl _ hlt
      rw [hstack, show v :: below = [v] ++ below from rfl, ← List.append_assoc,
        List.nodup_append] at hnodup
      rw [honget x, h.onStack x, hstack]
      by_cases hx : x ∈ above ++ [v]
      · have : x ∉ below := fun hb => hnodup.2.2 x hx x hb rfl
        simp [hx, this]
      · rw [if_neg hx]
        simp only [List.mem_append, List.mem_singleton, not_or] at hx
        simp [hx.1, hx.2]
  · have hne : ¬ (s.low v : Int) = (s.idx v : Int) := by omega
    obtain ⟨lowlink, hlen, hget, hfold⟩ := h.fold hi hwork { d with work := rest } rfl
    refine ⟨{ d with work := rest, lowlink := lowlink }, _, ?_, .retreat hwork hend hlow, ?_⟩
    · simp only [Search.leave, Vec.get?_eq hlv, Vec.get?_eq hiv, Option.bind_eq_bind, Option.bind_some,
        h.lowlink, hindex, if_neg hne]
      exact hfold
    · exact ⟨h.index_len, hlen.trans h.lowlink_len, h.onStack_len, h.index, hget, h.onStack, h.stack, rfl,
        h.counter, h.room, h.components, h.bound⟩

/-- The adjacency lists of a graph on the numbers below `nodes.length`. -/
structure Bounded (nodes : List String) (adj : Vec (List Nat)) : Prop where
  len : adj.len = nodes.length
  targets : ∀ v, ∀ w ∈ adj.get v, w < nodes.length

theorem Refines.iterate (h : Refines nodes d s) (hi : Tarjan.Inv adj.get s) (hadj : Bounded nodes adj)
    (hwork : s.work = (v, i) :: rest) :
    (∃ d' s', d.iterate adj nodes v i rest = some d' ∧ Tarjan.Step adj.get s s' ∧ Refines nodes d' s') ∨
      d.iterate adj nodes v i rest = none ∧ ∃ w < nodes.length, w ∉ s.order ∧
        i32Max ≤ (s.order.length : Int) := by
  have hv : v < adj.len := by
    rw [hadj.len]
    exact h.bound v (hi.stack_seen v (hi.top_stack hwork))
  simp only [Search.iterate, Vec.get?_eq hv, Option.bind_eq_bind, Option.bind_some]
  cases hw : (adj.get v)[i]? with
  | none => exact .inl (h.leave hi hwork (by simpa using hw))
  | some w =>
    have hbound := hadj.targets v w (List.mem_of_getElem? hw)
    rcases h.advance hi hwork hw hbound with hnext | ⟨hnone, hnew, hfull⟩
    · exact .inl hnext
    · exact .inr ⟨hnone, w, hbound, hnew, hfull⟩

/-- What running the search from `s` over the nodes `starts` comes to: it finishes, or the fuel is
below the iterations left, or there are more nodes than the counter can number. -/
def Ends (nodes : List String) (adj : Vec (List Nat)) (fuel : Nat) (s : St Nat) (starts : List Nat) :
    Except Stop Search → Prop
  | .ok d => ∃ s', Refines nodes d s' ∧ Tarjan.Inv adj.get s' ∧ s'.work = [] ∧
      (∀ x ∈ s.order, x ∈ s'.order) ∧ (∀ x ∈ starts, x ∈ s'.order) ∧
      Tarjan.cost adj.get (Finset.range nodes.length) s' ≤
        Tarjan.cost adj.get (Finset.range nodes.length) s
  | .error .outOfFuel => fuel < Tarjan.cost adj.get (Finset.range nodes.length) s
  | .error .panicked => i32Max < (nodes.length : Int)

/-- A new node below `nodes.length` leaves room for one more. -/
theorem Refines.order_length_lt (h : Refines nodes d s) (hi : Tarjan.Inv adj.get s) {w : Nat}
    (hw : w < nodes.length) (hnew : w ∉ s.order) : s.order.length < nodes.length := by
  have hnodup : (w :: s.order).Nodup := List.nodup_cons.mpr ⟨hnew, hi.nodup⟩
  have hsub : w :: s.order ⊆ List.range nodes.length := by
    intro v hv
    rcases List.mem_cons.mp hv with rfl | hv
    · exact List.mem_range.mpr hw
    · exact List.mem_range.mpr (h.bound v hv)
  have := (hnodup.subperm hsub).length_le
  simp only [List.length_cons, List.length_range] at this
  omega

/-- The end of a run from `s'` is the end of a run from the earlier state `s`. -/
theorem Ends.earlier {fuel fuel' : Nat} {s' : St Nat} {starts starts' : List Nat}
    {r : Except Stop Search} (h : Ends nodes adj fuel' s' starts' r)
    (hgrow : ∀ x ∈ s.order, x ∈ s'.order) (hstarts : ∀ x ∈ starts, x ∈ starts' ∨ x ∈ s'.order)
    (hcost : Tarjan.cost adj.get (Finset.range nodes.length) s' ≤
      Tarjan.cost adj.get (Finset.range nodes.length) s)
    (hfuel : fuel + Tarjan.cost adj.get (Finset.range nodes.length) s' ≤
      fuel' + Tarjan.cost adj.get (Finset.range nodes.length) s) : Ends nodes adj fuel s starts r := by
  cases r with
  | ok d =>
    obtain ⟨s'', h'', hi, hwork, hgrow', hin, hle⟩ := h
    refine ⟨s'', h'', hi, hwork, fun x hx => hgrow' x (hgrow x hx), ?_, by omega⟩
    intro x hx
    rcases hstarts x hx with hx | hx
    · exact hin x hx
    · exact hgrow' x hx
  | error e =>
    cases e with
    | outOfFuel => simp only [Ends] at h ⊢; omega
    | panicked => exact h

theorem order_step {s' : St Nat} (hs : Tarjan.Step adj.get s s') : ∀ x ∈ s.order, x ∈ s'.order := by
  intro x hx
  cases hs with
  | start | tree => exact List.mem_append_left _ hx
  | back | cross | retreat | emit => exact hx

theorem Refines.drain (hadj : Bounded nodes adj) : ∀ (fuel : Nat) {d : Search} {s : St Nat},
    Refines nodes d s → Tarjan.Inv adj.get s → Ends nodes adj fuel s [] (drain adj nodes fuel d) := by
  intro fuel
  induction fuel with
  | zero =>
    intro d s h hi
    cases hwork : s.work with
    | nil =>
      have : Scc.drain adj nodes 0 d = .ok d := by simp [Scc.drain, h.work, hwork]
      rw [this]
      exact ⟨s, h, hi, hwork, fun _ hx => hx, by simp, Nat.le_refl _⟩
    | cons p rest =>
      have : Scc.drain adj nodes 0 d = .error .outOfFuel := by simp [Scc.drain, h.work, hwork]
      rw [this]
      simp only [Ends, Tarjan.cost, hwork, List.map_cons, List.sum_cons]
      omega
  | succ fuel ih =>
    intro d s h hi
    cases hwork : s.work with
    | nil =>
      have : Scc.drain adj nodes (fuel + 1) d = .ok d := by simp [Scc.drain, h.work, hwork]
      rw [this]
      exact ⟨s, h, hi, hwork, fun _ hx => hx, by simp, Nat.le_refl _⟩
    | cons p rest =>
      obtain ⟨v, i⟩ := p
      rcases h.iterate hi hadj hwork with ⟨d', s', hd, hs, h'⟩ | ⟨hd, w, hw, hnew, hfull⟩
      · have hrun : Scc.drain adj nodes (fuel + 1) d = Scc.drain adj nodes fuel d' := by
          conv_lhs => unfold Scc.drain
          simp [h.work, hwork, hd]
        have hcost := hs.cost_lt (U := Finset.range nodes.length)
          (fun x hx => Finset.mem_range.mpr (h'.bound x hx)) (by rw [hwork]; simp)
        rw [hrun]
        exact (ih h' (hi.step hs)).earlier (order_step hs) (by simp) (by omega) (by omega)
      · have hrun : Scc.drain adj nodes (fuel + 1) d = .error .panicked := by
          unfold Scc.drain
          simp [h.work, hwork, hd]
        rw [hrun]
        have := h.order_length_lt hi hw hnew
        simp only [Ends]
        omega

theorem Refines.visit (hadj : Bounded nodes adj) (fuel : Nat) (h : Refines nodes d s)
    (hi : Tarjan.Inv adj.get s) (hwork : s.work = []) {start : Nat} (hstart : start < nodes.length) :
    Ends nodes adj fuel s [start] (visit fuel adj nodes d start) := by
  have hlen : start < d.index.len := by rw [h.index_len]; exact hstart
  have hindex := h.index start
  by_cases hseen : start ∈ s.order
  · rw [if_pos hseen] at hindex
    have hne : ¬ (s.idx start : Int) = unvisited := by simp only [unvisited]; omega
    have hrun : Scc.visit fuel adj nodes d start = .ok d := by
      simp [Scc.visit, Vec.get?_eq hlen, hindex, hne]
    rw [hrun]
    exact ⟨s, h, hi, hwork, fun _ hx => hx, by simpa using hseen, Nat.le_refl _⟩
  · rw [if_neg hseen] at hindex
    have hd : ({ d with work := [] } : Search) = d := by rw [← hwork, ← h.work]
    rcases h.discover hstart hseen with ⟨d', hd', h'⟩ | ⟨hd', hfull⟩
    · have hrun : Scc.visit fuel adj nodes d start = Scc.drain adj nodes fuel d' := by
        simp [Scc.visit, Vec.get?_eq hlen, hindex, hd, hd']
      rw [hwork] at h'
      have hcost : Tarjan.cost adj.get (Finset.range nodes.length) (s.push [] start) =
          Tarjan.cost adj.get (Finset.range nodes.length) s :=
        Tarjan.cost_start hwork (Finset.mem_range.mpr hstart) hseen
      rw [hrun]
      refine (Refines.drain hadj fuel h' (hi.step (.start hwork hseen))).earlier
        (fun x hx => List.mem_append_left _ hx) ?_ (by omega) (by omega)
      intro x hx
      rw [List.mem_singleton.mp hx]
      exact .inr (by simp [St.push])
    · have hrun : Scc.visit fuel adj nodes d start = .error .panicked := by
        simp [Scc.visit, Vec.get?_eq hlen, hindex, hd, hd']
      rw [hrun]
      have := h.order_length_lt hi hstart hseen
      simp only [Ends]
      omega

/-- `for start in 0..n` -/
theorem Refines.visits (hadj : Bounded nodes adj) (fuel : Nat) :
    ∀ (starts : List Nat) {d : Search} {s : St Nat}, Refines nodes d s → Tarjan.Inv adj.get s →
      s.work = [] → (∀ x ∈ starts, x < nodes.length) →
      Ends nodes adj fuel s starts (starts.foldlM (Scc.visit fuel adj nodes) d) := by
  intro starts
  induction starts with
  | nil =>
    intro d s h hi hwork _
    exact ⟨s, h, hi, hwork, fun _ hx => hx, by simp, Nat.le_refl _⟩
  | cons start starts ih =>
    intro d s h hi hwork hstarts
    have hends := h.visit hadj fuel hi hwork (hstarts start (by simp))
    rw [List.foldlM_cons]
    cases hr : Scc.visit fuel adj nodes d start with
    | error e =>
      rw [hr] at hends
      cases e with
      | outOfFuel => exact hends
      | panicked => exact hends
    | ok d' =>
      rw [hr] at hends
      obtain ⟨s', h', hi', hwork', hgrow, hin, hle⟩ := hends
      refine (ih h' hi' hwork' fun x hx => hstarts x (List.mem_cons_of_mem _ hx)).earlier hgrow ?_
        (by omega) (by omega)
      intro x hx
      rcases List.mem_cons.mp hx with rfl | hx
      · exact .inr (hin x (by simp))
      · exact .inl hx

/-- More fuel changes nothing once the search has ended. -/
theorem drain_more {fuel fuel' : Nat} (hle : fuel ≤ fuel') {d : Search}
    (h : drain adj nodes fuel d ≠ .error .outOfFuel) :
    drain adj nodes fuel' d = drain adj nodes fuel d := by
  induction fuel generalizing fuel' d with
  | zero =>
    cases hwork : d.work with
    | nil => cases fuel' <;> simp [drain, hwork]
    | cons p rest => exact absurd (by simp [drain, hwork]) h
  | succ fuel ih =>
    cases fuel' with
    | zero => omega
    | succ fuel' =>
      cases hwork : d.work with
      | nil => simp [drain, hwork]
      | cons p rest =>
        cases hd : d.iterate adj nodes p.1 p.2 rest with
        | none => simp [drain, hwork, hd]
        | some d' =>
          have hrun : ∀ k, drain adj nodes (k + 1) d = drain adj nodes k d' := by
            intro k
            conv_lhs => unfold drain
            simp [hwork, hd]
          rw [hrun] at h ⊢
          rw [hrun]
          exact ih (by omega) h

theorem visits_more {fuel fuel' : Nat} (hle : fuel ≤ fuel') (starts : List Nat) {d : Search}
    (h : starts.foldlM (visit fuel adj nodes) d ≠ .error .outOfFuel) :
    starts.foldlM (visit fuel' adj nodes) d = starts.foldlM (visit fuel adj nodes) d := by
  induction starts generalizing d with
  | nil => rfl
  | cons start starts ih =>
    rw [List.foldlM_cons] at h ⊢
    have hvisit : visit fuel' adj nodes d start = visit fuel adj nodes d start := by
      have hne : visit fuel adj nodes d start ≠ .error .outOfFuel := by
        intro he
        rw [he] at h
        exact h rfl
      unfold visit at hne ⊢
      split
      · rfl
      · rename_i i hi
        rw [hi] at hne
        split
        · rfl
        · rename_i hnew
          split
          · rfl
          · rename_i d' hd
            simp only [if_neg hnew, hd] at hne
            exact drain_more hle hne
    rw [List.foldlM_cons, hvisit]
    cases hr : visit fuel adj nodes d start with
    | error e => rfl
    | ok d' =>
      rw [hr] at h
      exact ih h

end

end Scc
end Graph
end CodeSage
