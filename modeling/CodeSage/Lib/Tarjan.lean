import Mathlib.Algebra.Order.Ring.Int
import Mathlib.Algebra.BigOperators.Group.Finset.Basic
import Mathlib.Algebra.Order.BigOperators.Group.Finset
import Mathlib.Data.List.Nodup
import Mathlib.Data.List.Perm.Lattice
import Mathlib.Logic.Relation
import Mathlib.Tactic.Common

/-!
# CodeSage.Lib.Tarjan

Tarjan's strongly connected components as a transition system over any type of nodes, with the
depth-first search kept on an explicit work stack. A node's index is its place in the order of
discovery.

`Inv` is the invariant of the search; each kind of step keeps it. When the work stack is empty the
components are the strongly connected components of the nodes seen, each listed after every
component it leads to. `cost` bounds the number of iterations.
-/

namespace Lib
namespace Tarjan

variable {ν : Type} [DecidableEq ν] (adj : ν → List ν)

def Reach : ν → ν → Prop := Relation.ReflTransGen fun x w => w ∈ adj x

/-- `order` lists the nodes seen; `stack` and `work` have their top first, and an entry `(v, i)` of
`work` has examined the first `i` edges of `v`. -/
structure St (ν : Type) where
  order : List ν
  low : ν → Nat
  stack : List ν
  work : List (ν × Nat)
  comps : List (List ν)

namespace St

def idx (s : St ν) (x : ν) : Nat := s.order.idxOf x

/-- The nodes whose search is under way, the latest first. -/
def path (s : St ν) : List ν := s.work.map Prod.fst

/-- The edge from `x` to `w` has been examined. -/
def Examined (s : St ν) (x w : ν) : Prop :=
  x ∈ s.order ∧ w ∈ adj x ∧ ∀ i, (x, i) ∈ s.work → w ∈ (adj x).take i

def push (s : St ν) (work : List (ν × Nat)) (w : ν) : St ν where
  order := s.order ++ [w]
  low := Function.update s.low w s.order.length
  stack := w :: s.stack
  work := (w, 0) :: work
  comps := s.comps

/-- `lowlink[parent] = lowlink[parent].min(lowlink[v])`, if there is a parent. -/
def foldLow (low : ν → Nat) (v : ν) : List (ν × Nat) → ν → Nat
  | [] => low
  | (p, _) :: _ => Function.update low p (min (low p) (low v))

end St

/-- One iteration of the search. -/
inductive Step : St ν → St ν → Prop where
  | start {s : St ν} {w : ν} (hwork : s.work = []) (hw : w ∉ s.order) : Step s (s.push [] w)
  | tree {s : St ν} {v w : ν} {i : Nat} {rest : List (ν × Nat)} (hwork : s.work = (v, i) :: rest)
      (hi : (adj v)[i]? = some w) (hw : w ∉ s.order) : Step s (s.push ((v, i + 1) :: rest) w)
  | back {s : St ν} {v w : ν} {i : Nat} {rest : List (ν × Nat)} (hwork : s.work = (v, i) :: rest)
      (hi : (adj v)[i]? = some w) (hw : w ∈ s.order) (hstack : w ∈ s.stack) :
      Step s { s with
        low := Function.update s.low v (min (s.low v) (s.idx w))
        work := (v, i + 1) :: rest }
  | cross {s : St ν} {v w : ν} {i : Nat} {rest : List (ν × Nat)} (hwork : s.work = (v, i) :: rest)
      (hi : (adj v)[i]? = some w) (hw : w ∈ s.order) (hstack : w ∉ s.stack) :
      Step s { s with work := (v, i + 1) :: rest }
  | retreat {s : St ν} {v : ν} {i : Nat} {rest : List (ν × Nat)} (hwork : s.work = (v, i) :: rest)
      (hi : (adj v).length ≤ i) (hlow : s.low v ≠ s.idx v) :
      Step s { s with work := rest, low := St.foldLow s.low v rest }
  | emit {s : St ν} {v : ν} {i : Nat} {rest : List (ν × Nat)} {above below : List ν}
      (hwork : s.work = (v, i) :: rest) (hi : (adj v).length ≤ i) (hlow : s.low v = s.idx v)
      (hstack : s.stack = above ++ v :: below) (habove : v ∉ above) :
      Step s { s with
        work := rest
        low := St.foldLow s.low v rest
        stack := below
        comps := s.comps ++ [above ++ [v]] }

/-- What holds of the components found: they are the strongly connected components of their
members, all different, and none leads to a later one. -/
structure Sound (comps : List (List ν)) : Prop where
  nodup : comps.flatten.Nodup
  nonempty : ∀ C ∈ comps, C ≠ []
  scc : ∀ C ∈ comps, ∀ a ∈ C, ∀ b, b ∈ C ↔ Reach adj a b ∧ Reach adj b a
  ordered : comps.Pairwise fun C D => ∀ a ∈ C, ∀ b ∈ D, ¬ Reach adj a b

structure Inv (s : St ν) : Prop where
  nodup : s.order.Nodup
  stack_seen : ∀ x ∈ s.stack, x ∈ s.order
  stack_sorted : s.stack.Pairwise fun a b => s.idx b < s.idx a
  path_stack : ∀ p ∈ s.path, p ∈ s.stack
  path_sorted : s.path.Pairwise fun a b => s.idx b < s.idx a
  -- every node on the stack belongs to the node of the path below it
  based : ∀ x ∈ s.stack, ∃ p ∈ s.path, s.idx p ≤ s.idx x
  path_reach : ∀ p ∈ s.path, ∀ x ∈ s.stack, s.idx p ≤ s.idx x → Reach adj p x
  examined_seen : ∀ x w, s.Examined adj x w → w ∈ s.order
  low_le : ∀ x ∈ s.stack, s.low x ≤ s.idx x
  low_reach : ∀ x ∈ s.stack, ∃ y ∈ s.stack, s.low x = s.idx y ∧ Reach adj x y
  low_lt : ∀ x ∈ s.stack, x ∉ s.path → s.low x < s.idx x
  -- `low p` bounds where the edges examined so far lead, from the nodes between `p` and the next
  -- node of the path
  covers : ∀ above p below, s.path = above ++ p :: below → ∀ x ∈ s.stack, s.idx p ≤ s.idx x →
    (∀ q ∈ above, s.idx x < s.idx q) → ∀ w ∈ s.stack, s.Examined adj x w → s.low p ≤ s.idx w
  closed : ∀ x ∈ s.order, x ∉ s.stack → ∀ w ∈ adj x, w ∈ s.order ∧ w ∉ s.stack
  comps_mem : ∀ x, x ∈ s.comps.flatten ↔ x ∈ s.order ∧ x ∉ s.stack
  sound : Sound adj s.comps

section Basic

variable {adj} {s : St ν}

theorem idx_inj {x y : ν} (hx : x ∈ s.order) (h : s.idx x = s.idx y) : x = y :=
  (List.idxOf_inj hx).mp h

theorem idx_lt {x : ν} (hx : x ∈ s.order) : s.idx x < s.order.length :=
  List.idxOf_lt_length_iff.mpr hx

theorem push_idx_old {work : List (ν × Nat)} {w x : ν} (hx : x ∈ s.order) :
    (s.push work w).idx x = s.idx x := List.idxOf_append_of_mem hx

theorem push_idx_new {work : List (ν × Nat)} {w : ν} (hw : w ∉ s.order) :
    (s.push work w).idx w = s.order.length := by
  simp [St.push, St.idx, List.idxOf_append_of_notMem hw]

theorem Inv.init (low : ν → Nat) : Inv adj ⟨[], low, [], [], []⟩ where
  nodup := List.nodup_nil
  stack_seen := by simp
  stack_sorted := List.Pairwise.nil
  path_stack := by simp [St.path]
  path_sorted := List.Pairwise.nil
  based := by simp
  path_reach := by simp [St.path]
  examined_seen _ _ h := by simp [St.Examined] at h
  low_le := by simp
  low_reach := by simp
  low_lt := by simp
  covers above p below h := by simp [St.path] at h
  closed := by simp
  comps_mem := by simp
  sound := ⟨by simp, by simp, by simp, List.Pairwise.nil⟩

/-- What has left the stack leads only to what has left the stack. -/
theorem Inv.closed_reach (h : Inv adj s) {x y : ν} (hr : Reach adj x y) (hx : x ∈ s.order)
    (hx' : x ∉ s.stack) : y ∈ s.order ∧ y ∉ s.stack := by
  induction hr with
  | refl => exact ⟨hx, hx'⟩
  | tail _ he ih => exact h.closed _ ih.1 ih.2 _ he

/-- When the path is empty, so is the stack. -/
theorem Inv.stack_empty (h : Inv adj s) (hwork : s.work = []) : s.stack = [] := by
  rw [List.eq_nil_iff_forall_not_mem]
  intro x hx
  obtain ⟨p, hp, _⟩ := h.based x hx
  rw [St.path, hwork] at hp
  cases hp

end Basic

section Steps

variable {adj} {s : St ν}

/-- A new node on top of the path, whose edges are still to be examined. -/
theorem Inv.push (h : Inv adj s) {work : List (ν × Nat)} {w : ν} (hw : w ∉ s.order)
    (hpath : work.map Prod.fst = s.path)
    (hex : ∀ x y, (s.push work w).Examined adj x y → s.Examined adj x y ∨ y = w)
    (hreach : ∀ p ∈ s.path, Reach adj p w) : Inv adj (s.push work w) := by
  have hnew : (s.push work w).idx w = s.order.length := push_idx_new hw
  have hold : ∀ x ∈ s.order, (s.push work w).idx x = s.idx x := fun x hx => push_idx_old hx
  have hlt : ∀ x ∈ s.order, s.idx x < s.order.length := fun x hx => idx_lt hx
  have hstack : ∀ x ∈ s.stack, x ≠ w := by rintro x hx rfl; exact hw (h.stack_seen x hx)
  have hseen : ∀ p ∈ s.path, p ∈ s.order := fun p hp => h.stack_seen p (h.path_stack p hp)
  have hp' : (s.push work w).path = w :: s.path := by rw [← hpath]; rfl
  have hlow : ∀ x ∈ s.stack, (s.push work w).low x = s.low x :=
    fun x hx => Function.update_of_ne (hstack x hx) ..
  have hloww : (s.push work w).low w = s.order.length := Function.update_self ..
  -- only `w` itself is at or above `w`
  have htop : ∀ x ∈ w :: s.stack, s.order.length ≤ (s.push work w).idx x → x = w := by
    intro x hx hle
    rcases List.mem_cons.mp hx with rfl | hx
    · rfl
    · rw [hold x (h.stack_seen x hx)] at hle
      have := hlt x (h.stack_seen x hx)
      omega
  refine ⟨?_, ?_, ?_, ?_, ?_, ?_, ?_, ?_, ?_, ?_, ?_, ?_, ?_, ?_, h.sound⟩
  · exact List.nodup_append.mpr ⟨h.nodup, List.nodup_singleton w, fun a ha b hb => by
      rw [List.mem_singleton.mp hb]; rintro rfl; exact hw ha⟩
  · intro x hx
    rcases List.mem_cons.mp hx with rfl | hx
    · exact List.mem_append_right _ (List.mem_singleton.mpr rfl)
    · exact List.mem_append_left _ (h.stack_seen x hx)
  · refine List.pairwise_cons.mpr ⟨fun b hb => ?_, h.stack_sorted.imp_of_mem fun ha hb hab => ?_⟩
    · rw [hnew, hold b (h.stack_seen b hb)]; exact hlt b (h.stack_seen b hb)
    · rw [hold _ (h.stack_seen _ ha), hold _ (h.stack_seen _ hb)]; exact hab
  · intro p hp
    rw [hp'] at hp
    rcases List.mem_cons.mp hp with rfl | hp
    · exact List.mem_cons_self ..
    · exact List.mem_cons_of_mem _ (h.path_stack p hp)
  · rw [hp']
    refine List.pairwise_cons.mpr ⟨fun b hb => ?_, h.path_sorted.imp_of_mem fun ha hb hab => ?_⟩
    · rw [hnew, hold b (hseen b hb)]; exact hlt b (hseen b hb)
    · rw [hold _ (hseen _ ha), hold _ (hseen _ hb)]; exact hab
  · intro x hx
    rw [hp']
    rcases List.mem_cons.mp hx with rfl | hx
    · exact ⟨x, List.mem_cons_self .., Nat.le_refl _⟩
    · obtain ⟨p, hp, hle⟩ := h.based x hx
      exact ⟨p, List.mem_cons_of_mem _ hp, by rw [hold p (hseen p hp), hold x (h.stack_seen x hx)]; exact hle⟩
  · intro p hp x hx hle
    rw [hp'] at hp
    rcases List.mem_cons.mp hp with rfl | hp
    · rw [hnew] at hle
      rw [htop x hx hle]
      exact .refl
    · rcases List.mem_cons.mp hx with hxw | hx
      · rw [hxw]; exact hreach p hp
      · rw [hold p (hseen p hp), hold x (h.stack_seen x hx)] at hle
        exact h.path_reach p hp x hx hle
  · intro x y hxy
    rcases hex x y hxy with hxy | rfl
    · exact List.mem_append_left _ (h.examined_seen x y hxy)
    · exact List.mem_append_right _ (List.mem_singleton.mpr rfl)
  · intro x hx
    rcases List.mem_cons.mp hx with rfl | hx
    · exact Nat.le_of_eq (hloww.trans hnew.symm)
    · rw [hlow x hx, hold x (h.stack_seen x hx)]; exact h.low_le x hx
  · intro x hx
    rcases List.mem_cons.mp hx with rfl | hx
    · exact ⟨x, List.mem_cons_self .., by rw [hloww, hnew], .refl⟩
    · obtain ⟨y, hy, hle, hr⟩ := h.low_reach x hx
      exact ⟨y, List.mem_cons_of_mem _ hy, by rw [hlow x hx, hold y (h.stack_seen y hy)]; exact hle, hr⟩
  · intro x hx hnot
    rw [hp'] at hnot
    rcases List.mem_cons.mp hx with rfl | hx
    · exact absurd (List.mem_cons_self ..) hnot
    · rw [hlow x hx, hold x (h.stack_seen x hx)]
      exact h.low_lt x hx fun hp => hnot (List.mem_cons_of_mem _ hp)
  · intro above p below hsplit x hx hle hbetween y hy hxy
    rw [hp'] at hsplit
    cases above with
    | nil =>
      obtain ⟨rfl, _⟩ := List.cons.inj hsplit
      rw [hnew] at hle
      obtain rfl := htop x hx hle
      -- no edge of the new node has been examined
      have := hxy.2.2 0 (List.mem_cons_self ..)
      simp at this
    | cons q above =>
      obtain ⟨rfl, htail⟩ := List.cons.inj hsplit
      have htail : s.path = above ++ p :: below := htail
      have hpp : p ∈ s.path := by rw [htail]; simp
      have hxw : x ≠ w := by
        rintro rfl
        exact Nat.lt_irrefl _ (hbetween x (List.mem_cons_self ..))
      have hx : x ∈ s.stack := (List.mem_cons.mp hx).resolve_left hxw
      have hplow := h.low_le p (h.path_stack p hpp)
      rw [hlow p (h.path_stack p hpp)]
      rcases List.mem_cons.mp hy with rfl | hy
      · rw [hnew]
        have := hlt p (hseen p hpp)
        omega
      · rw [hold p (hseen p hpp), hold x (h.stack_seen x hx)] at hle
        rw [hold y (h.stack_seen y hy)]
        refine h.covers above p below htail x hx hle (fun q hq => ?_) y hy
          ((hex x y hxy).resolve_right (hstack y hy))
        have := hbetween q (List.mem_cons_of_mem _ hq)
        have hqp : q ∈ s.path := by rw [htail]; exact List.mem_append_left _ hq
        rw [hold q (hseen q hqp), hold x (h.stack_seen x hx)] at this
        exact this
  · intro x hx hnot y hy
    have hxw : x ≠ w := by rintro rfl; exact hnot (List.mem_cons_self ..)
    have hx : x ∈ s.order := (List.mem_append.mp hx).resolve_right (by simpa using hxw)
    obtain ⟨h1, h2⟩ := h.closed x hx (fun hs => hnot (List.mem_cons_of_mem _ hs)) y hy
    refine ⟨List.mem_append_left _ h1, fun hy' => ?_⟩
    rcases List.mem_cons.mp hy' with rfl | hy'
    · exact hw h1
    · exact h2 hy'
  · intro x
    show x ∈ s.comps.flatten ↔ x ∈ s.order ++ [w] ∧ x ∉ w :: s.stack
    rw [h.comps_mem x, List.mem_append, List.mem_singleton, List.mem_cons, not_or]
    constructor
    · rintro ⟨h1, h2⟩
      exact ⟨.inl h1, by rintro rfl; exact hw h1, h2⟩
    · rintro ⟨h1, h2, h3⟩
      exact ⟨h1.resolve_right h2, h3⟩

theorem Inv.start (h : Inv adj s) {w : ν} (hwork : s.work = []) (hw : w ∉ s.order) :
    Inv adj (s.push [] w) := by
  refine h.push hw (by rw [St.path, hwork]) ?_ (by rw [St.path, hwork]; simp)
  rintro x y ⟨hx, hy, hi⟩
  rcases List.mem_append.mp hx with hx | hx
  · exact .inl ⟨hx, hy, by rw [hwork]; simp⟩
  · rw [List.mem_singleton.mp hx] at hi
    have := hi 0 (List.mem_cons_self ..)
    simp at this

/-- The edges examined once the top of `work` has moved on to its next edge. -/
theorem examined_advance {v w x y : ν} {i : Nat} {rest : List (ν × Nat)}
    (hwork : s.work = (v, i) :: rest) (hi : (adj v)[i]? = some w) (hx : x ∈ s.order) (hy : y ∈ adj x)
    (h : ∀ j, (x, j) ∈ (v, i + 1) :: rest → y ∈ (adj x).take j) :
    s.Examined adj x y ∨ x = v ∧ y = w := by
  by_cases hxv : x = v
  · subst hxv
    have hmem := h (i + 1) (List.mem_cons_self ..)
    rw [List.take_add_one, hi, List.mem_append] at hmem
    rcases hmem with hmem | hmem
    · refine .inl ⟨hx, hy, fun j hj => ?_⟩
      rw [hwork] at hj
      rcases List.mem_cons.mp hj with he | hj
      · cases he; exact hmem
      · exact h j (List.mem_cons_of_mem _ hj)
    · exact .inr ⟨rfl, by simpa using hmem⟩
  · refine .inl ⟨hx, hy, fun j hj => h j ?_⟩
    rw [hwork] at hj
    rcases List.mem_cons.mp hj with he | hj
    · exact absurd (Prod.mk.inj he).1 hxv
    · exact List.mem_cons_of_mem _ hj

theorem Inv.tree (h : Inv adj s) {v w : ν} {i : Nat} {rest : List (ν × Nat)}
    (hwork : s.work = (v, i) :: rest) (hi : (adj v)[i]? = some w) (hw : w ∉ s.order) :
    Inv adj (s.push ((v, i + 1) :: rest) w) := by
  have hedge : w ∈ adj v := List.mem_of_getElem? hi
  have hv : v ∈ s.path := by rw [St.path, hwork]; exact List.mem_cons_self ..
  refine h.push hw (by rw [St.path, hwork]; rfl) ?_ ?_
  · rintro x y ⟨hx, hy, hj⟩
    rcases List.mem_append.mp hx with hx | hx
    · exact (examined_advance hwork hi hx hy fun j hm => hj j (List.mem_cons_of_mem _ hm)).imp_right
        And.right
    · rw [List.mem_singleton.mp hx] at hj
      have := hj 0 (List.mem_cons_self ..)
      simp at this
  · intro p hp
    refine (h.path_reach p hp v (h.path_stack v hv) ?_).tail hedge
    -- `v` is the top of the path
    have hsorted := h.path_sorted
    rw [St.path, hwork] at hp hsorted
    rcases List.mem_cons.mp hp with rfl | hp
    · exact Nat.le_refl _
    · exact Nat.le_of_lt ((List.pairwise_cons.mp hsorted).1 p hp)

/-- A step of the top of `work` along an edge to a node already seen: `low` may drop, to the index
of that node at the top and only there. -/
theorem Inv.advance (h : Inv adj s) {v w : ν} {i : Nat} {rest : List (ν × Nat)} {low : ν → Nat}
    (hwork : s.work = (v, i) :: rest) (hi : (adj v)[i]? = some w) (hw : w ∈ s.order)
    (hother : ∀ x, x ≠ v → low x = s.low x) (hle : low v ≤ s.low v)
    (hlow : low v = s.low v ∨ w ∈ s.stack ∧ low v = s.idx w)
    (hcover : w ∈ s.stack → low v ≤ s.idx w) :
    Inv adj { s with low := low, work := (v, i + 1) :: rest } := by
  have hpath : ({ s with low := low, work := (v, i + 1) :: rest } : St ν).path = s.path := by
    simp only [St.path, hwork, List.map_cons]
  have hv : v ∈ s.path := by rw [St.path, hwork]; exact List.mem_cons_self ..
  have hmono : ∀ x, low x ≤ s.low x := by
    intro x
    by_cases hx : x = v
    · rw [hx]; exact hle
    · exact Nat.le_of_eq (hother x hx)
  have hex : ∀ x y, ({ s with low := low, work := (v, i + 1) :: rest } : St ν).Examined adj x y →
      s.Examined adj x y ∨ x = v ∧ y = w := fun x y hxy => examined_advance hwork hi hxy.1 hxy.2.1 hxy.2.2
  refine ⟨h.nodup, h.stack_seen, h.stack_sorted, ?_, ?_, ?_, ?_, ?_, ?_, ?_, ?_, ?_, h.closed,
    h.comps_mem, h.sound⟩
  · rw [hpath]; exact h.path_stack
  · rw [hpath]; exact h.path_sorted
  · rw [hpath]; exact h.based
  · rw [hpath]; exact h.path_reach
  · intro x y hxy
    rcases hex x y hxy with hxy | ⟨_, rfl⟩
    · exact h.examined_seen x y hxy
    · exact hw
  · exact fun x hx => Nat.le_trans (hmono x) (h.low_le x hx)
  · intro x hx
    by_cases hxv : x = v
    · subst hxv
      rcases hlow with hl | ⟨hs, hl⟩
      · obtain ⟨y, hy, he, hr⟩ := h.low_reach x hx
        exact ⟨y, hy, hl.trans he, hr⟩
      · exact ⟨w, hs, hl, Relation.ReflTransGen.single (List.mem_of_getElem? hi)⟩
    · obtain ⟨y, hy, he, hr⟩ := h.low_reach x hx
      exact ⟨y, hy, (hother x hxv).trans he, hr⟩
  · intro x hx hnot
    rw [hpath] at hnot
    show low x < s.idx x
    rw [hother x fun he => hnot (he ▸ hv)]
    exact h.low_lt x hx hnot
  · intro above p below hsplit x hx hpx hbetween y hy hxy
    rw [hpath] at hsplit
    rcases hex x y hxy with hxy | ⟨rfl, rfl⟩
    · exact Nat.le_trans (hmono p) (h.covers above p below hsplit x hx hpx hbetween y hy hxy)
    · -- the edge just examined starts at the top of the path
      cases above with
      | nil =>
        have : p = x := by
          rw [St.path, hwork] at hsplit
          exact (List.cons.inj hsplit).1.symm
        rw [this]
        exact hcover hy
      | cons q above =>
        have : q = x := by
          rw [St.path, hwork] at hsplit
          exact (List.cons.inj hsplit).1.symm
        have := hbetween q (List.mem_cons_self ..)
        subst q
        exact absurd this (Nat.lt_irrefl _)

omit [DecidableEq ν] in
/-- The edges examined once the search of the top node is over. -/
theorem examined_retreat {v : ν} {i : Nat} {rest : List (ν × Nat)} (hwork : s.work = (v, i) :: rest)
    (hi : (adj v).length ≤ i) {x y : ν} (hx : x ∈ s.order)
    (hy : y ∈ adj x) (h : ∀ j, (x, j) ∈ rest → y ∈ (adj x).take j) : s.Examined adj x y := by
  refine ⟨hx, hy, fun j hj => ?_⟩
  rw [hwork] at hj
  rcases List.mem_cons.mp hj with he | hj
  · obtain ⟨rfl, rfl⟩ := Prod.mk.inj he
    rw [List.take_of_length_le hi]
    exact hy
  · exact h j hj

section Top

variable {v : ν} {i : Nat} {rest : List (ν × Nat)}

theorem Inv.top_stack (h : Inv adj s) (hwork : s.work = (v, i) :: rest) : v ∈ s.stack :=
  h.path_stack v (by rw [St.path, hwork]; exact List.mem_cons_self ..)

theorem Inv.top_idx (h : Inv adj s) (hwork : s.work = (v, i) :: rest) :
    ∀ p ∈ rest.map Prod.fst, s.idx p < s.idx v := by
  have := h.path_sorted
  rw [St.path, hwork] at this
  exact (List.pairwise_cons.mp this).1

theorem Inv.top_unique (h : Inv adj s) (hwork : s.work = (v, i) :: rest) :
    v ∉ rest.map Prod.fst := fun hm => Nat.lt_irrefl _ (h.top_idx hwork v hm)

/-- The search of a root of the whole tree ends with `low v = idx v`. -/
theorem Inv.has_parent (h : Inv adj s) (hwork : s.work = (v, i) :: rest) (hlow : s.low v ≠ s.idx v) :
    ∃ p j rest', rest = (p, j) :: rest' := by
  cases rest with
  | cons p rest' => exact ⟨p.1, p.2, rest', rfl⟩
  | nil =>
    exfalso
    have hv := h.top_stack hwork
    obtain ⟨y, hy, he, _⟩ := h.low_reach v hv
    obtain ⟨p, hp, hle⟩ := h.based y hy
    rw [St.path, hwork] at hp
    obtain rfl : p = v := by simpa using hp
    have := h.low_le p hv
    omega

theorem Inv.retreat (h : Inv adj s) (hwork : s.work = (v, i) :: rest) (hi : (adj v).length ≤ i)
    (hlow : s.low v ≠ s.idx v) :
    Inv adj { s with work := rest, low := St.foldLow s.low v rest } := by
  have hv := h.top_stack hwork
  have htop := h.top_idx hwork
  have hunique := h.top_unique hwork
  have hpath : s.path = v :: rest.map Prod.fst := by rw [St.path, hwork]; rfl
  obtain ⟨p₀, j, rest', rfl⟩ := h.has_parent hwork hlow
  have hp₀ : s.idx p₀ < s.idx v := htop p₀ (by simp)
  have hvp : v ≠ p₀ := by rintro rfl; exact Nat.lt_irrefl _ hp₀
  have hself : St.foldLow s.low v ((p₀, j) :: rest') p₀ = min (s.low p₀) (s.low v) :=
    Function.update_self ..
  have hother : ∀ x, x ≠ p₀ → St.foldLow s.low v ((p₀, j) :: rest') x = s.low x :=
    fun x hx => Function.update_of_ne hx ..
  have hmono : ∀ x, St.foldLow s.low v ((p₀, j) :: rest') x ≤ s.low x := by
    intro x
    by_cases hx : x = p₀
    · subst hx; rw [hself]; exact Nat.min_le_left _ _
    · exact Nat.le_of_eq (hother x hx)
  have hsub : ∀ p ∈ ((p₀, j) :: rest').map Prod.fst, p ∈ s.path := by
    intro p hp; rw [hpath]; exact List.mem_cons_of_mem _ hp
  have hex : ∀ x y, ({ s with
      work := (p₀, j) :: rest', low := St.foldLow s.low v ((p₀, j) :: rest') } : St ν).Examined adj x y →
      s.Examined adj x y := fun x y hxy => examined_retreat hwork hi hxy.1 hxy.2.1 hxy.2.2
  refine ⟨h.nodup, h.stack_seen, h.stack_sorted, ?_, ?_, ?_, ?_, ?_, ?_, ?_, ?_, ?_, h.closed,
    h.comps_mem, h.sound⟩
  · exact fun p hp => h.path_stack p (hsub p hp)
  · have := h.path_sorted
    rw [hpath] at this
    exact (List.pairwise_cons.mp this).2
  · intro x hx
    obtain ⟨p, hp, hle⟩ := h.based x hx
    rw [hpath] at hp
    rcases List.mem_cons.mp hp with rfl | hp
    · refine ⟨p₀, List.mem_cons_self .., ?_⟩
      show s.idx p₀ ≤ s.idx x
      omega
    · exact ⟨p, hp, hle⟩
  · exact fun p hp => h.path_reach p (hsub p hp)
  · exact fun x y hxy => h.examined_seen x y (hex x y hxy)
  · exact fun x hx => Nat.le_trans (hmono x) (h.low_le x hx)
  · intro x hx
    by_cases hxp : x = p₀
    · subst hxp
      rcases Nat.le_total (s.low x) (s.low v) with hle | hle
      · obtain ⟨y, hy, he, hr⟩ := h.low_reach x hx
        exact ⟨y, hy, (hself.trans (Nat.min_eq_left hle)).trans he, hr⟩
      · obtain ⟨y, hy, he, hr⟩ := h.low_reach v hv
        refine ⟨y, hy, (hself.trans (Nat.min_eq_right hle)).trans he, ?_⟩
        exact (h.path_reach x (hsub x (by simp)) v hv (Nat.le_of_lt hp₀)).trans hr
    · obtain ⟨y, hy, he, hr⟩ := h.low_reach x hx
      exact ⟨y, hy, (hother x hxp).trans he, hr⟩
  · intro x hx hnot
    have hxp : x ≠ p₀ := by rintro rfl; exact hnot (List.mem_cons_self ..)
    show St.foldLow s.low v ((p₀, j) :: rest') x < s.idx x
    rw [hother x hxp]
    by_cases hxv : x = v
    · subst hxv
      exact Nat.lt_of_le_of_ne (h.low_le x hx) hlow
    · refine h.low_lt x hx fun hp => ?_
      rw [hpath] at hp
      rcases List.mem_cons.mp hp with he | hp
      · exact hxv he
      · exact hnot hp
  · intro above p below hsplit x hx hpx hbetween y hy hxy
    have hsplit : ((p₀, j) :: rest').map Prod.fst = above ++ p :: below := hsplit
    have hxy := hex x y hxy
    by_cases hxv : s.idx x < s.idx v
    · refine Nat.le_trans (hmono p) (h.covers (v :: above) p below ?_ x hx hpx (fun q hq => ?_) y hy hxy)
      · rw [hpath, hsplit]; rfl
      · rcases List.mem_cons.mp hq with rfl | hq
        · exact hxv
        · exact hbetween q hq
    · -- `x` was above `v`, and its edges now count for the parent of `v`
      have hvy := h.covers [] v _ hpath x hx (Nat.le_of_not_lt hxv) (by simp) y hy hxy
      cases above with
      | nil =>
        obtain rfl : p₀ = p := (List.cons.inj hsplit).1
        exact Nat.le_trans (Nat.le_of_eq hself) (Nat.le_trans (Nat.min_le_right _ _) hvy)
      | cons q above =>
        obtain rfl : p₀ = q := (List.cons.inj hsplit).1
        have : s.idx x < s.idx p₀ := hbetween p₀ (List.mem_cons_self ..)
        omega

section Component

variable {above below : List ν}

/-- The nodes above `v` on the stack, `v` included, are those with an index from `v`'s on. -/
theorem Inv.segment (h : Inv adj s) (hstack : s.stack = above ++ v :: below) {x : ν}
    (hx : x ∈ s.stack) : x ∈ above ++ [v] ↔ s.idx v ≤ s.idx x := by
  have hsorted := h.stack_sorted
  rw [hstack, List.pairwise_append, List.pairwise_cons] at hsorted
  obtain ⟨_, ⟨hbelow, _⟩, habove⟩ := hsorted
  rw [List.mem_append, List.mem_singleton]
  constructor
  · rintro (hx | rfl)
    · exact Nat.le_of_lt (habove x hx v (List.mem_cons_self ..))
    · exact Nat.le_refl _
  · intro hle
    rw [hstack] at hx
    rcases List.mem_append.mp hx with hx | hx
    · exact .inl hx
    · rcases List.mem_cons.mp hx with hx | hx
      · exact .inr hx
      · have := hbelow x hx
        omega

omit [DecidableEq ν] in
theorem segment_stack (hstack : s.stack = above ++ v :: below) {x : ν}
    (hx : x ∈ above ++ [v]) : x ∈ s.stack := by
  rw [hstack]
  rcases List.mem_append.mp hx with hx | hx
  · exact List.mem_append_left _ hx
  · rw [List.mem_singleton.mp hx]; simp

/-- A finished search with `low v = idx v`: the edges of the segment of `v` stay in it, or lead to
nodes that have left the stack. -/
theorem Inv.segment_edge (h : Inv adj s) (hwork : s.work = (v, i) :: rest)
    (hi : (adj v).length ≤ i) (hlow : s.low v = s.idx v) (hstack : s.stack = above ++ v :: below)
    {x y : ν} (hx : x ∈ above ++ [v]) (hy : y ∈ adj x) :
    y ∈ above ++ [v] ∨ y ∈ s.order ∧ y ∉ s.stack := by
  have hxs := segment_stack hstack hx
  have hle := (h.segment hstack hxs).mp hx
  have hxy : s.Examined adj x y := by
    refine examined_retreat hwork hi (h.stack_seen x hxs) hy fun j hj => ?_
    have := h.top_idx hwork x (List.mem_map.mpr ⟨(x, j), hj, rfl⟩)
    omega
  by_cases hys : y ∈ s.stack
  · left
    rw [h.segment hstack hys]
    have hpath : s.path = [] ++ v :: rest.map Prod.fst := by rw [St.path, hwork]; rfl
    have := h.covers [] v _ hpath x hxs hle (by simp) y hys hxy
    omega
  · exact .inr ⟨h.examined_seen x y hxy, hys⟩

theorem Inv.segment_reach (h : Inv adj s) (hwork : s.work = (v, i) :: rest)
    (hi : (adj v).length ≤ i) (hlow : s.low v = s.idx v) (hstack : s.stack = above ++ v :: below)
    {x y : ν} (hr : Reach adj x y) (hx : x ∈ above ++ [v]) :
    y ∈ above ++ [v] ∨ y ∈ s.order ∧ y ∉ s.stack := by
  induction hr with
  | refl => exact .inl hx
  | tail _ he ih =>
    rcases ih with hz | ⟨hz, hz'⟩
    · exact h.segment_edge hwork hi hlow hstack hz he
    · exact .inr (h.closed _ hz hz' _ he)

/-- Every node of the segment reaches `v`: by induction on its index, since a finished node has a
`low` below its own index, and can reach the node of that index. -/
theorem Inv.segment_root (h : Inv adj s) (hwork : s.work = (v, i) :: rest)
    (hi : (adj v).length ≤ i) (hlow : s.low v = s.idx v) (hstack : s.stack = above ++ v :: below) :
    ∀ k x, x ∈ above ++ [v] → s.idx x = k → Reach adj x v := by
  intro k
  induction k using Nat.strongRecOn with
  | ind k ih =>
    intro x hx hk
    by_cases hxv : x = v
    · rw [hxv]; exact .refl
    · have hxs := segment_stack hstack hx
      have hle := (h.segment hstack hxs).mp hx
      have hnot : x ∉ s.path := by
        intro hp
        rw [St.path, hwork] at hp
        rcases List.mem_cons.mp hp with he | hp
        · exact hxv he
        · have := h.top_idx hwork x hp
          omega
      obtain ⟨y, hy, he, hr⟩ := h.low_reach x hxs
      have hlt := h.low_lt x hxs hnot
      rcases h.segment_reach hwork hi hlow hstack hr hx with hys | ⟨_, hys⟩
      · exact hr.trans (ih (s.idx y) (by omega) y hys rfl)
      · exact absurd hy hys

theorem Inv.segment_scc (h : Inv adj s) (hwork : s.work = (v, i) :: rest)
    (hi : (adj v).length ≤ i) (hlow : s.low v = s.idx v) (hstack : s.stack = above ++ v :: below) :
    ∀ a ∈ above ++ [v], ∀ b, b ∈ above ++ [v] ↔ Reach adj a b ∧ Reach adj b a := by
  have hfrom : ∀ x ∈ above ++ [v], Reach adj v x := by
    intro x hx
    have hxs := segment_stack hstack hx
    exact h.path_reach v (by rw [St.path, hwork]; exact List.mem_cons_self ..) x hxs
      ((h.segment hstack hxs).mp hx)
  have hto : ∀ x ∈ above ++ [v], Reach adj x v :=
    fun x hx => h.segment_root hwork hi hlow hstack _ x hx rfl
  intro a ha b
  constructor
  · exact fun hb => ⟨(hto a ha).trans (hfrom b hb), (hto b hb).trans (hfrom a ha)⟩
  · rintro ⟨hab, hba⟩
    rcases h.segment_reach hwork hi hlow hstack hab ha with hb | ⟨hb, hb'⟩
    · exact hb
    · exact absurd (segment_stack hstack ha) (h.closed_reach hba hb hb').2

theorem Inv.emit (h : Inv adj s) (hwork : s.work = (v, i) :: rest) (hi : (adj v).length ≤ i)
    (hlow : s.low v = s.idx v) (hstack : s.stack = above ++ v :: below) :
    Inv adj { s with
      work := rest
      low := St.foldLow s.low v rest
      stack := below
      comps := s.comps ++ [above ++ [v]] } := by
  have htop := h.top_idx hwork
  have hpath : s.path = v :: rest.map Prod.fst := by rw [St.path, hwork]; rfl
  have hsub : ∀ p ∈ rest.map Prod.fst, p ∈ s.path := by
    intro p hp; rw [hpath]; exact List.mem_cons_of_mem _ hp
  have hbelow : ∀ x, x ∈ below ↔ x ∈ s.stack ∧ s.idx x < s.idx v := by
    have hsorted := h.stack_sorted
    rw [hstack, List.pairwise_append, List.pairwise_cons] at hsorted
    intro x
    constructor
    · intro hx
      exact ⟨by rw [hstack]; simp [hx], hsorted.2.1.1 x hx⟩
    · rintro ⟨hx, hlt⟩
      have hnot : x ∉ above ++ [v] := fun hm => by
        have := (h.segment hstack hx).mp hm
        omega
      rw [hstack] at hx
      simp only [List.mem_append, List.mem_cons, not_or] at hx hnot
      exact (hx.resolve_left hnot.1).resolve_left hnot.2.1
  have hseg : ∀ x ∈ above ++ [v], x ∉ below := by
    intro x hx hb
    have h1 := (h.segment hstack (segment_stack hstack hx)).mp hx
    have h2 := ((hbelow x).mp hb).2
    omega
  have hbs : ∀ x ∈ below, x ∈ s.stack := fun x hx => ((hbelow x).mp hx).1
  -- the parent has a smaller `low` already
  have hfold : St.foldLow s.low v rest = s.low := by
    cases rest with
    | nil => rfl
    | cons p rest' =>
      have hp : s.idx p.1 < s.idx v := htop p.1 (by simp)
      have := h.low_le p.1 (h.path_stack p.1 (hsub p.1 (by simp)))
      funext x
      by_cases hx : x = p.1
      · subst hx
        exact (Function.update_self ..).trans (Nat.min_eq_left (by omega))
      · exact Function.update_of_ne hx ..
  rw [hfold]
  refine ⟨h.nodup, ?_, ?_, ?_, ?_, ?_, ?_, ?_, ?_, ?_, ?_, ?_, ?_, ?_, ?_⟩
  · exact fun x hx => h.stack_seen x (hbs x hx)
  · have := h.stack_sorted
    rw [hstack, List.pairwise_append, List.pairwise_cons] at this
    exact this.2.1.2
  · exact fun p hp => (hbelow p).mpr ⟨h.path_stack p (hsub p hp), htop p hp⟩
  · have := h.path_sorted
    rw [hpath] at this
    exact (List.pairwise_cons.mp this).2
  · intro x hx
    obtain ⟨p, hp, hle⟩ := h.based x (hbs x hx)
    have hlt := ((hbelow x).mp hx).2
    rw [hpath] at hp
    rcases List.mem_cons.mp hp with rfl | hp
    · omega
    · exact ⟨p, hp, hle⟩
  · exact fun p hp x hx => h.path_reach p (hsub p hp) x (hbs x hx)
  · exact fun x y hxy => h.examined_seen x y (examined_retreat hwork hi hxy.1 hxy.2.1 hxy.2.2)
  · exact fun x hx => h.low_le x (hbs x hx)
  · intro x hx
    obtain ⟨y, hy, he, hr⟩ := h.low_reach x (hbs x hx)
    refine ⟨y, (hbelow y).mpr ⟨hy, ?_⟩, he, hr⟩
    have h1 := h.low_le x (hbs x hx)
    have h2 := ((hbelow x).mp hx).2
    omega
  · intro x hx hnot
    refine h.low_lt x (hbs x hx) fun hp => ?_
    rw [hpath] at hp
    rcases List.mem_cons.mp hp with rfl | hp
    · exact Nat.lt_irrefl _ ((hbelow x).mp hx).2
    · exact hnot hp
  · intro above' p below' hsplit x hx hpx hbetween y hy hxy
    have hsplit : rest.map Prod.fst = above' ++ p :: below' := hsplit
    refine h.covers (v :: above') p below' (by rw [hpath, hsplit]; rfl) x (hbs x hx) hpx
      (fun q hq => ?_) y (hbs y hy) (examined_retreat hwork hi hxy.1 hxy.2.1 hxy.2.2)
    rcases List.mem_cons.mp hq with rfl | hq
    · exact ((hbelow x).mp hx).2
    · exact hbetween q hq
  · intro x hx hnot y hy
    have hcase : x ∈ above ++ [v] ∨ x ∉ s.stack := by
      by_cases hxs : x ∈ s.stack
      · left
        rw [h.segment hstack hxs]
        by_contra hlt
        exact hnot ((hbelow x).mpr ⟨hxs, by omega⟩)
      · exact .inr hxs
    rcases hcase with hxs | hxs
    · rcases h.segment_edge hwork hi hlow hstack hxs hy with hys | ⟨hyo, hys⟩
      · exact ⟨h.stack_seen y (segment_stack hstack hys), hseg y hys⟩
      · exact ⟨hyo, fun hb => hys (hbs y hb)⟩
    · obtain ⟨h1, h2⟩ := h.closed x hx hxs y hy
      exact ⟨h1, fun hb => h2 (hbs y hb)⟩
  · intro x
    rw [List.flatten_append, List.mem_append, h.comps_mem x, List.flatten_singleton]
    constructor
    · rintro (⟨h1, h2⟩ | hx)
      · exact ⟨h1, fun hb => h2 (hbs x hb)⟩
      · exact ⟨h.stack_seen x (segment_stack hstack hx), hseg x hx⟩
    · rintro ⟨h1, h2⟩
      by_cases hxs : x ∈ s.stack
      · right
        rw [h.segment hstack hxs]
        by_contra hlt
        exact h2 ((hbelow x).mpr ⟨hxs, by omega⟩)
      · exact .inl ⟨h1, hxs⟩
  · refine ⟨?_, ?_, ?_, ?_⟩
    · rw [List.flatten_append, List.flatten_singleton, List.nodup_append]
      have hnodup : s.stack.Nodup := h.stack_sorted.imp fun hlt he => by
        rw [he] at hlt; exact Nat.lt_irrefl _ hlt
      refine ⟨h.sound.nodup, ?_, ?_⟩
      · rw [hstack] at hnodup
        refine hnodup.sublist ?_
        rw [show v :: below = [v] ++ below from rfl, ← List.append_assoc]
        exact List.sublist_append_left _ _
      · rintro a ha b hb rfl
        exact ((h.comps_mem a).mp ha).2 (segment_stack hstack hb)
    · intro C hC
      rcases List.mem_append.mp hC with hC | hC
      · exact h.sound.nonempty C hC
      · rw [List.mem_singleton.mp hC]; simp
    · intro C hC
      rcases List.mem_append.mp hC with hC | hC
      · exact h.sound.scc C hC
      · rw [List.mem_singleton.mp hC]
        exact h.segment_scc hwork hi hlow hstack
    · rw [List.pairwise_append]
      refine ⟨h.sound.ordered, List.pairwise_singleton _ _, fun C hC D hD a ha b hb hr => ?_⟩
      rw [List.mem_singleton.mp hD] at hb
      have hdone := (h.comps_mem a).mp (List.mem_flatten.mpr ⟨C, hC, ha⟩)
      exact (h.closed_reach hr hdone.1 hdone.2).2 (segment_stack hstack hb)

end Component

end Top

theorem Inv.step {s' : St ν} (h : Inv adj s) (hs : Step adj s s') : Inv adj s' := by
  cases hs with
  | start hwork hw => exact h.start hwork hw
  | tree hwork hi hw => exact h.tree hwork hi hw
  | @back v w i rest hwork hi hw hstack =>
    refine h.advance hwork hi hw (fun x hx => Function.update_of_ne hx ..) ?_ ?_ ?_
    · rw [Function.update_self]; exact Nat.min_le_left _ _
    · rw [Function.update_self]
      rcases Nat.le_total (s.low v) (s.idx w) with hle | hle
      · exact .inl (Nat.min_eq_left hle)
      · exact .inr ⟨hstack, Nat.min_eq_right hle⟩
    · intro _; rw [Function.update_self]; exact Nat.min_le_right _ _
  | cross hwork hi hw hstack =>
    exact h.advance hwork hi hw (fun _ _ => rfl) (Nat.le_refl _) (.inl rfl) fun hs => absurd hs hstack
  | retreat hwork hi hlow => exact h.retreat hwork hi hlow
  | emit hwork hi hlow hstack habove => exact h.emit hwork hi hlow hstack

end Steps

section Cost

variable {adj} {s s' : St ν}

variable (adj) in
/-- Iterations left: one for every edge, and one to leave each node. -/
def cost (U : Finset ν) (s : St ν) : Nat :=
  (∑ x ∈ U, if x ∈ s.order then 0 else (adj x).length + 1) +
    (s.work.map fun p => (adj p.1).length - p.2 + 1).sum

theorem cost_push {U : Finset ν} {work : List (ν × Nat)} {w : ν} (hU : w ∈ U) (hw : w ∉ s.order) :
    cost adj U (s.push work w) = (∑ x ∈ U, if x ∈ s.order then 0 else (adj x).length + 1) +
      (work.map fun p => (adj p.1).length - p.2 + 1).sum := by
  have hsum : (∑ x ∈ U, if x ∈ s.order ++ [w] then 0 else (adj x).length + 1) +
      ((adj w).length + 1) = ∑ x ∈ U, if x ∈ s.order then 0 else (adj x).length + 1 := by
    rw [← Finset.add_sum_erase U _ hU, ← Finset.add_sum_erase U
      (fun x => if x ∈ s.order then 0 else (adj x).length + 1) hU, if_pos (by simp), if_neg hw]
    have : ∀ x ∈ U.erase w, (if x ∈ s.order ++ [w] then 0 else (adj x).length + 1) =
        if x ∈ s.order then 0 else (adj x).length + 1 := by
      intro x hx
      have hxw := Finset.ne_of_mem_erase hx
      simp [hxw]
    rw [Finset.sum_congr rfl this]
    omega
  show (∑ x ∈ U, if x ∈ s.order ++ [w] then 0 else (adj x).length + 1) +
    (((w, 0) :: work).map fun p => (adj p.1).length - p.2 + 1).sum = _
  rw [← hsum, List.map_cons, List.sum_cons]
  simp only [Nat.sub_zero]
  omega

theorem Step.cost_lt {U : Finset ν} (hs : Step adj s s') (hU : ∀ x ∈ s'.order, x ∈ U)
    (hwork : s.work ≠ []) : cost adj U s' < cost adj U s := by
  cases hs with
  | start he => exact absurd he hwork
  | @tree v w i rest he hi hw =>
    have hlt : i < (adj v).length := (List.getElem?_eq_some_iff.mp hi).1
    rw [cost_push (hU w (by simp [St.push])) hw]
    simp only [cost, he, List.map_cons, List.sum_cons]
    omega
  | @back v w i rest he hi hw =>
    have hlt : i < (adj v).length := (List.getElem?_eq_some_iff.mp hi).1
    simp only [cost, he, List.map_cons, List.sum_cons]
    omega
  | @cross v w i rest he hi hw =>
    have hlt : i < (adj v).length := (List.getElem?_eq_some_iff.mp hi).1
    simp only [cost, he, List.map_cons, List.sum_cons]
    omega
  | retreat he =>
    simp only [cost, he, List.map_cons, List.sum_cons]
    omega
  | emit he =>
    simp only [cost, he, List.map_cons, List.sum_cons]
    omega

theorem cost_start {U : Finset ν} {w : ν} (hwork : s.work = []) (hU : w ∈ U) (hw : w ∉ s.order) :
    cost adj U (s.push [] w) = cost adj U s := by
  rw [cost_push hU hw, cost, hwork]

end Cost

end Tarjan
end Lib
