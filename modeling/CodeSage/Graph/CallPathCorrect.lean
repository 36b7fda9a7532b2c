import CodeSage.Graph.CallPath
import CodeSage.Lib.Assoc
import CodeSage.Lib.Bfs
import Mathlib.Data.List.Chain

/-!
# CodeSage.Graph.CallPathCorrect

A chain that `trace_call_path` reports is a shortest one, and a miss that is not `bounded` means
that no target can be reached.

The search is the breadth-first search of `Lib.Bfs` over definitions told apart by `keyOf`
(`Inv`, `Mid`); `walkBack_eq` reads the chain off its parent pointers.
-/

namespace CodeSage
namespace Graph
namespace CallPath

open Lib Protocol

/-- `b` is called in the body of `a`, as `callees_of` resolves it. -/
abbrev Calls (calleesOf : Symbol → Callees) : Symbol → Symbol → Prop :=
  Bfs.Edge fun s => (calleesOf s).out

/-- Each symbol is called by the one before it, at the line it carries. -/
def Trail (calleesOf : Symbol → Callees) (chain : List (Symbol × Option Nat)) : Prop :=
  chain.IsChain fun a b => ∃ line, b.2 = some line ∧ (b.1, line) ∈ (calleesOf a.1).out

/-- What a report with `found` says. -/
structure Shortest (calleesOf : Symbol → Callees) (origins targets : List Symbol) (maxDepth : Nat)
    (report : CallPathReport) : Prop where
  chain : ∃ chain, report.steps = chain.map (fun c => stepOf c.1 c.2) ∧ Trail calleesOf chain ∧
    (∃ o, chain.head? = some o ∧ o.1 ∈ origins) ∧
    ∃ t, chain.getLast? = some t ∧ keyOf t.1 ∈ targets.map keyOf
  length : report.length + 1 = report.steps.length
  within : report.length ≤ maxDepth
  least : ∀ n x, ReachIn (Calls calleesOf) (· ∈ origins) n x → keyOf x ∈ targets.map keyOf →
    report.length ≤ n

section

variable {calleesOf : Symbol → Callees} {origins : List Symbol} {targetKeys : List SymbolKey}

/-- The state after some of the origins. -/
structure Started (origins : List Symbol) (targetKeys : List SymbolKey) (w : Walk) : Prop where
  parents : w.parents = ∅
  visited : w.visited = w.queue.map fun e => keyOf e.1
  nodup : w.visited.Nodup
  entry : ∀ e ∈ w.queue, e.2 = 0 ∧ e.1 ∈ origins ∧ keyOf e.1 ∉ targetKeys
  origin : ∀ o ∈ origins, keyOf o ∈ w.visited

theorem start_spec : ∀ (rest : List Symbol) (origins : List Symbol) (w : Walk),
    Started origins targetKeys w →
    match start targetKeys rest w with
    | .inl o => o ∈ rest ∧ keyOf o ∈ targetKeys
    | .inr w' => Started (origins ++ rest) targetKeys w' := by
  intro rest
  induction rest with
  | nil =>
    intro origins w h
    simpa [start] using h
  | cons o rest ih =>
    intro origins w h
    rw [start]
    by_cases ht : keyOf o ∈ targetKeys
    · simp [ht]
    rw [if_neg ht]
    have hnext : ∀ w', Started (origins ++ [o]) targetKeys w' →
        match start targetKeys rest w' with
        | .inl o' => o' ∈ o :: rest ∧ keyOf o' ∈ targetKeys
        | .inr w'' => Started (origins ++ o :: rest) targetKeys w'' := by
      intro w' h'
      have := ih (origins ++ [o]) w' h'
      rw [List.append_assoc, List.singleton_append] at this
      cases hr : start targetKeys rest w' with
      | inl o' =>
        rw [hr] at this
        exact ⟨List.mem_cons_of_mem _ this.1, this.2⟩
      | inr w'' =>
        rw [hr] at this
        exact this
    by_cases hv : keyOf o ∈ w.visited
    · rw [if_pos hv]
      refine hnext w ⟨h.parents, h.visited, h.nodup, fun e he => ?_, fun o' ho' => ?_⟩
      · exact ⟨(h.entry e he).1, List.mem_append_left _ (h.entry e he).2.1, (h.entry e he).2.2⟩
      · rcases List.mem_append.mp ho' with ho' | ho'
        · exact h.origin o' ho'
        · rw [List.mem_singleton.mp ho']; exact hv
    · rw [if_neg hv]
      refine hnext _ ⟨h.parents, ?_, ?_, fun e he => ?_, fun o' ho' => ?_⟩
      · simp [h.visited]
      · refine List.nodup_append.mpr ⟨h.nodup, List.nodup_singleton _, fun a ha b hb => ?_⟩
        rw [List.mem_singleton.mp hb]
        rintro rfl
        exact hv ha
      · rcases List.mem_append.mp he with he | he
        · exact ⟨(h.entry e he).1, List.mem_append_left _ (h.entry e he).2.1, (h.entry e he).2.2⟩
        · rw [List.mem_singleton.mp he]
          exact ⟨rfl, by simp, ht⟩
      · rcases List.mem_append.mp ho' with ho' | ho'
        · exact List.mem_append_left _ (h.origin o' ho')
        · rw [List.mem_singleton.mp ho']
          simp

/-- The walk at the head of the loop: `done` have left the queue, in order. Entries beyond the
depth bound have not been expanded, but then `hit_bound` is set. -/
structure Inv (calleesOf : Symbol → Callees) (origins : List Symbol) (targetKeys : List SymbolKey)
    (maxDepth : Nat) (done : List (Symbol × Nat)) (w : Walk) (hitBound : Bool) : Prop where
  record : Bfs.Record keyOf (fun s => (calleesOf s).out) origins (done ++ w.queue)
    fun k => w.parents.lookup k
  visited : w.visited = (done ++ w.queue).map fun e => keyOf e.1
  targets : ∀ e ∈ done ++ w.queue, keyOf e.1 ∉ targetKeys
  near : ∀ a ∈ w.queue, ∀ b ∈ w.queue, b.2 ≤ a.2 + 1
  expanded : ∀ s n, (s, n) ∈ done → n < maxDepth →
    Bfs.Expanded keyOf (fun s => (calleesOf s).out) (done ++ w.queue) s n
  bound : hitBound = false → ∀ e ∈ done, e.2 < maxDepth

theorem Started.inv {w : Walk} (h : Started origins targetKeys w) (maxDepth : Nat) :
    Inv calleesOf origins targetKeys maxDepth [] w false := by
  have hzero : ∀ s n, (s, n) ∈ w.queue → n = 0 := fun s n hs => (h.entry _ hs).1
  refine ⟨⟨?_, ?_, ?_, ?_, ?_⟩, h.visited, fun e he => (h.entry e he).2.2, ?_, by simp, by simp⟩
  · rw [List.nil_append, ← h.visited]
    exact h.nodup
  · refine List.Pairwise.imp_of_mem (fun ha hb _ => ?_) (List.pairwise_of_forall fun _ _ => trivial)
    rw [(h.entry _ ha).1]
    exact Nat.zero_le _
  · intro o ho
    have hv := h.origin o ho
    rw [h.visited] at hv
    obtain ⟨⟨o', n⟩, he, hk⟩ := List.mem_map.mp hv
    obtain rfl := hzero o' n he
    exact ⟨o', he, hk⟩
  · intro s hs
    exact ⟨(h.entry _ hs).2.1, by simp [h.parents]⟩
  · intro s n hs
    exact absurd (hzero s _ hs) (Nat.succ_ne_zero n)
  · intro a ha b hb
    rw [(h.entry a ha).1, (h.entry b hb).1]
    exact Nat.zero_le _

/-- The walk inside the loop, after some callees of `sym`, the last of `done`. -/
structure Mid (calleesOf : Symbol → Callees) (origins : List Symbol) (targetKeys : List SymbolKey)
    (sym : Symbol) (depth : Nat) (done : List (Symbol × Nat)) (w : Walk) : Prop where
  record : Bfs.Record keyOf (fun s => (calleesOf s).out) origins (done ++ w.queue)
    fun k => w.parents.lookup k
  visited : w.visited = (done ++ w.queue).map fun e => keyOf e.1
  targets : ∀ e ∈ done ++ w.queue, keyOf e.1 ∉ targetKeys
  current : (sym, depth) ∈ done
  upper : ∀ e ∈ done ++ w.queue, e.2 ≤ depth + 1
  lower : ∀ e ∈ w.queue, depth ≤ e.2

variable {sym : Symbol} {depth : Nat} {done : List (Symbol × Nat)}

theorem Mid.push {w : Walk} (h : Mid calleesOf origins targetKeys sym depth done w) {d : Symbol}
    {line : Nat} (hd : (d, line) ∈ (calleesOf sym).out) (ht : keyOf d ∉ targetKeys)
    (hnew : keyOf d ∉ w.visited) :
    Mid calleesOf origins targetKeys sym depth done
      { queue := w.queue ++ [(d, depth + 1)]
        visited := w.visited ++ [keyOf d]
        parents := w.parents.insert (keyOf d) (sym, line) } := by
  have hcur : (sym, depth) ∈ done ++ w.queue := List.mem_append_left _ h.current
  have hkeys : ∀ e ∈ done ++ w.queue, keyOf e.1 ≠ keyOf d := by
    intro e he hk
    refine hnew ?_
    rw [h.visited]
    exact List.mem_map.mpr ⟨e, he, hk⟩
  have hlookup : (fun k => (w.parents.insert (keyOf d) (sym, line)).lookup k) =
      Function.update (fun k => w.parents.lookup k) (keyOf d) (some (sym, line)) := by
    funext k
    rw [lookup_insert, Function.update_apply]
  refine ⟨?_, ?_, ?_, h.current, ?_, ?_⟩
  · rw [hlookup, ← List.append_assoc]
    exact h.record.push hcur hd hkeys h.upper
  · simp [h.visited]
  · intro e he
    rw [← List.append_assoc] at he
    rcases List.mem_append.mp he with he | he
    · exact h.targets e he
    · rw [List.mem_singleton.mp he]
      exact ht
  · intro e he
    rw [← List.append_assoc] at he
    rcases List.mem_append.mp he with he | he
    · exact h.upper e he
    · rw [List.mem_singleton.mp he]
  · intro e he
    rcases List.mem_append.mp he with he | he
    · exact h.lower e he
    · rw [List.mem_singleton.mp he]
      exact Nat.le_succ depth

/-- `for callee in callees`: a target is reported with its caller; else every callee has been seen. -/
theorem examine_spec : ∀ (callees : List (Symbol × Nat)) (w : Walk),
    Mid calleesOf origins targetKeys sym depth done w → (∀ c ∈ callees, c ∈ (calleesOf sym).out) →
    match examine targetKeys sym depth callees w with
    | .inl (d, parents) => keyOf d ∈ targetKeys ∧ ∃ line w', (d, line) ∈ (calleesOf sym).out ∧
        parents = w'.parents.insert (keyOf d) (sym, line) ∧
        Mid calleesOf origins targetKeys sym depth done w'
    | .inr w' => Mid calleesOf origins targetKeys sym depth done w' ∧
        (∃ new, w'.queue = w.queue ++ new ∧ w'.visited = w.visited ++ new.map fun e => keyOf e.1) ∧
        ∀ c ∈ callees, keyOf c.1 ∈ w'.visited := by
  intro callees
  induction callees with
  | nil =>
    intro w h _
    exact ⟨h, ⟨[], by simp, by simp⟩, by simp⟩
  | cons c callees ih =>
    obtain ⟨d, line⟩ := c
    intro w h hall
    have hd := hall (d, line) (List.mem_cons_self ..)
    have hrest : ∀ c ∈ callees, c ∈ (calleesOf sym).out := fun c hc => hall c (List.mem_cons_of_mem _ hc)
    rw [examine]
    by_cases ht : keyOf d ∈ targetKeys
    · rw [if_pos ht]
      exact ⟨ht, line, w, hd, rfl, h⟩
    rw [if_neg ht]
    by_cases hv : keyOf d ∈ w.visited
    · rw [if_pos hv]
      have := ih w h hrest
      cases hr : examine targetKeys sym depth callees w with
      | inl r => rw [hr] at this; exact this
      | inr w' =>
        rw [hr] at this
        obtain ⟨hmid, ⟨new, hq, hvis⟩, hseen⟩ := this
        refine ⟨hmid, ⟨new, hq, hvis⟩, fun c hc => ?_⟩
        rcases List.mem_cons.mp hc with rfl | hc
        · rw [hvis]; exact List.mem_append_left _ hv
        · exact hseen c hc
    · rw [if_neg hv]
      have := ih _ (h.push hd ht hv) hrest
      cases hr : examine targetKeys sym depth callees
          { queue := w.queue ++ [(d, depth + 1)]
            visited := w.visited ++ [keyOf d]
            parents := w.parents.insert (keyOf d) (sym, line) } with
      | inl r => rw [hr] at this; exact this
      | inr w' =>
        rw [hr] at this
        obtain ⟨hmid, ⟨new, hq, hvis⟩, hseen⟩ := this
        refine ⟨hmid, ⟨(d, depth + 1) :: new, ?_, ?_⟩, fun c hc => ?_⟩
        · rw [hq, List.append_assoc, List.singleton_append]
        · rw [hvis, List.append_assoc, List.singleton_append, List.map_cons]
        · rcases List.mem_cons.mp hc with rfl | hc
          · rw [hvis]; simp
          · exact hseen c hc

/-- From an entry of depth `n` the parent pointers lead back to an origin in `n` steps. -/
theorem walkBack_eq {seen : List (Symbol × Nat)} {look : SymbolKey → Option (Symbol × Nat)}
    (h : Bfs.Record keyOf (fun s => (calleesOf s).out) origins seen look) {parents : Parents}
    (hlook : ∀ e ∈ seen, parents.lookup (keyOf e.1) = look (keyOf e.1)) :
    ∀ (n : Nat) (s : Symbol), (s, n) ∈ seen → ∃ chain,
      (∀ fuel > n, walkBack parents (origins.map keyOf) fuel s
        ((parents.lookup (keyOf s)).map Prod.snd) = some chain) ∧
      chain.length = n + 1 ∧ (∃ l, chain.head? = some (s, l)) ∧
      (∃ o, chain.getLast? = some o ∧ o.1 ∈ origins) ∧
      chain.IsChain fun b a => ∃ line, b.2 = some line ∧ (b.1, line) ∈ (calleesOf a.1).out := by
  intro n
  induction n with
  | zero =>
    intro s hs
    have ho := (h.root s hs).1
    refine ⟨[(s, (parents.lookup (keyOf s)).map Prod.snd)], fun fuel hfuel => ?_, rfl, ⟨_, rfl⟩,
      ⟨_, rfl, ho⟩, List.IsChain.singleton _⟩
    obtain ⟨k, rfl⟩ := Nat.exists_eq_succ_of_ne_zero (Nat.ne_of_gt hfuel)
    rw [walkBack, if_pos (List.mem_map.mpr ⟨s, ho, rfl⟩)]
  | succ n ih =>
    intro s hs
    obtain ⟨p, line, hp, hline, hpar⟩ := h.parent s n hs
    obtain ⟨chain, hrun, hlen, ⟨l, hhead⟩, hlast, hchain⟩ := ih p hp
    have hnot : keyOf s ∉ origins.map keyOf := by
      intro hm
      obtain ⟨o, ho, hk⟩ := List.mem_map.mp hm
      have := h.depth_zero hs ho hk.symm
      omega
    have hget : parents.lookup (keyOf s) = some (p, line) := (hlook _ hs).trans hpar
    cases chain with
    | nil => cases hhead
    | cons c chain =>
      obtain rfl : c = (p, l) := Option.some.inj hhead
      refine ⟨(s, some line) :: (p, l) :: chain, fun fuel hfuel => ?_, by simp [hlen], ⟨_, rfl⟩, ?_, ?_⟩
      · cases fuel with
        | zero => omega
        | succ fuel =>
          rw [walkBack, if_neg hnot, hget]
          simp only [hrun fuel (by omega), Option.map_some]
      · rw [List.getLast?_cons_cons]
        exact hlast
      · exact List.IsChain.cons_cons ⟨line, rfl, hline⟩ hchain

/-- The chain of a target that a callee of `sym` is. -/
theorem Mid.reconstruct {w : Walk} (h : Mid calleesOf origins targetKeys sym depth done w) {d : Symbol}
    {line : Nat} (hd : (d, line) ∈ (calleesOf sym).out) (ht : keyOf d ∈ targetKeys) :
    ∃ chain : List (Symbol × Option Nat),
      (∀ fuel > depth + 1,
        reconstruct fuel d (w.parents.insert (keyOf d) (sym, line)) (origins.map keyOf) =
          some (chain.map fun c => stepOf c.1 c.2)) ∧
      chain.length = depth + 2 ∧ Trail calleesOf chain ∧
      (∃ o, chain.head? = some o ∧ o.1 ∈ origins) ∧ ∃ t, chain.getLast? = some t ∧ t.1 = d := by
  have hnot : keyOf d ∉ origins.map keyOf := by
    intro hm
    obtain ⟨o, ho, hk⟩ := List.mem_map.mp hm
    obtain ⟨o', ho', hk'⟩ := h.record.origin o ho
    refine h.targets _ ho' ?_
    rw [hk', hk]
    exact ht
  have hlook : ∀ e ∈ done ++ w.queue,
      (w.parents.insert (keyOf d) (sym, line)).lookup (keyOf e.1) = w.parents.lookup (keyOf e.1) := by
    intro e he
    rw [lookup_insert, if_neg]
    rintro hk
    exact h.targets e he (hk ▸ ht)
  obtain ⟨chain, hrun, hlen, ⟨l, hhead⟩, hlast, hchain⟩ := walkBack_eq h.record hlook depth sym
    (List.mem_append_left _ h.current)
  have hget : (w.parents.insert (keyOf d) (sym, line)).lookup (keyOf d) = some (sym, line) :=
    AList.lookup_insert _
  refine ⟨((d, some line) :: chain).reverse, fun fuel hfuel => ?_, by simp [hlen], ?_, ?_, ?_⟩
  · cases fuel with
    | zero => omega
    | succ fuel =>
      rw [CallPath.reconstruct, walkBack, if_neg hnot, hget]
      simp only [hrun fuel (by omega), Option.map_some]
  · rw [Trail, List.isChain_reverse]
    cases chain with
    | nil => cases hhead
    | cons c chain =>
      obtain rfl : c = (sym, l) := Option.some.inj hhead
      exact List.IsChain.cons_cons ⟨line, rfl, hd⟩ hchain
  · obtain ⟨o, ho, hmem⟩ := hlast
    refine ⟨o, ?_, hmem⟩
    rw [List.head?_reverse, List.getLast?_cons, ho]
    rfl
  · exact ⟨(d, some line), by simp, rfl⟩

variable {maxDepth : Nat} {w : Walk} {hitBound : Bool} {queue : List (Symbol × Nat)}

/-- The entry taken from the queue is the least deep. -/
theorem Inv.mid (h : Inv calleesOf origins targetKeys maxDepth done w hitBound)
    (hq : w.queue = (sym, depth) :: queue) :
    Mid calleesOf origins targetKeys sym depth (done ++ [(sym, depth)]) { w with queue := queue } := by
  have hsplit : done ++ [(sym, depth)] ++ queue = done ++ w.queue := by
    rw [hq, List.append_assoc, List.singleton_append]
  have hsorted := h.record.sorted
  rw [hq, List.pairwise_append, List.pairwise_cons] at hsorted
  have hmem : (sym, depth) ∈ w.queue := by rw [hq]; exact List.mem_cons_self ..
  refine ⟨?_, ?_, ?_, by simp, ?_, fun e he => hsorted.2.1.1 e he⟩
  · rw [hsplit]; exact h.record
  · rw [hsplit]; exact h.visited
  · rw [hsplit]; exact h.targets
  · rw [hsplit]
    intro e he
    rcases List.mem_append.mp he with he | he
    · have := hsorted.2.2 e he (sym, depth) (List.mem_cons_self ..)
      omega
    · exact h.near _ hmem e he

/-- Every entry above the depth of the head of the queue has been expanded, so that every node
reached in `depth` steps has been seen. -/
theorem Inv.seen (h : Inv calleesOf origins targetKeys maxDepth done w hitBound)
    (halike : Bfs.Alike keyOf (fun s => (calleesOf s).out) origins) {n : Nat}
    (hqueue : ∀ e ∈ w.queue, n ≤ e.2) (hn : n ≤ maxDepth) {m : Nat} (hm : m ≤ n) {x : Symbol}
    (hx : ReachIn (Calls calleesOf) (· ∈ origins) m x) : keyOf x ∉ targetKeys := by
  obtain ⟨s, k, hs, hk, -⟩ := h.record.seen_of_reached halike (fun s k hs hk => by
    rcases List.mem_append.mp hs with hs | hs
    · exact h.expanded s k hs (by omega)
    · have := hqueue _ hs
      simp only at this
      omega) hx hm
  rw [← hk]
  exact h.targets _ hs

/-- The entry taken from the queue has been expanded. -/
theorem Inv.next (h : Inv calleesOf origins targetKeys maxDepth done w hitBound)
    (hq : w.queue = (sym, depth) :: queue) (hdepth : depth < maxDepth) {w' : Walk}
    {new : List (Symbol × Nat)}
    (hmid : Mid calleesOf origins targetKeys sym depth (done ++ [(sym, depth)]) w')
    (hnew : w'.queue = queue ++ new) (hseen : ∀ c ∈ (calleesOf sym).out, keyOf c.1 ∈ w'.visited)
    (hitBound' : Bool) (hb : hitBound' = false → hitBound = false) :
    Inv calleesOf origins targetKeys maxDepth (done ++ [(sym, depth)]) w' hitBound' := by
  refine ⟨hmid.record, hmid.visited, hmid.targets, fun a ha b hb => ?_, fun s n hs hn => ?_,
    fun hb' e he => ?_⟩
  · have h1 := hmid.lower a ha
    have h2 := hmid.upper b (List.mem_append_right _ hb)
    omega
  · rcases List.mem_append.mp hs with hs | hs
    · have := (h.expanded s n hs hn).mono new
      rwa [hq, List.append_assoc, List.cons_append, ← hnew, ← List.singleton_append,
        ← List.append_assoc] at this
    · obtain ⟨rfl, rfl⟩ := Prod.mk.inj (List.mem_singleton.mp hs)
      intro d l hd
      have hv := hseen (d, l) hd
      rw [hmid.visited] at hv
      obtain ⟨⟨d', m⟩, he, hk⟩ := List.mem_map.mp hv
      exact ⟨d', m, he, hk, hmid.upper _ he⟩
  · rcases List.mem_append.mp he with he | he
    · exact h.bound (hb hb') e he
    · rw [List.mem_singleton.mp he]
      exact hdepth

/-- An entry at the depth bound is dropped. -/
theorem Inv.skip (h : Inv calleesOf origins targetKeys maxDepth done w hitBound)
    (hq : w.queue = (sym, depth) :: queue) (hdepth : maxDepth ≤ depth) :
    Inv calleesOf origins targetKeys maxDepth (done ++ [(sym, depth)]) { w with queue := queue } true := by
  have hmid := h.mid hq
  have hsplit : done ++ [(sym, depth)] ++ queue = done ++ w.queue := by
    rw [hq, List.append_assoc, List.singleton_append]
  refine ⟨hmid.record, hmid.visited, hmid.targets, fun a ha b hb => ?_, fun s n hs hn => ?_, by simp⟩
  · exact h.near a (by rw [hq]; exact List.mem_cons_of_mem _ ha) b
      (by rw [hq]; exact List.mem_cons_of_mem _ hb)
  · rcases List.mem_append.mp hs with hs | hs
    · rw [hsplit]
      exact h.expanded s n hs hn
    · obtain ⟨rfl, rfl⟩ := Prod.mk.inj (List.mem_singleton.mp hs)
      omega

/-- A target among the callees of the entry taken from the queue: the chain to it is shortest. -/
theorem Inv.found (h : Inv calleesOf origins targetKeys maxDepth done w hitBound)
    (halike : Bfs.Alike keyOf (fun s => (calleesOf s).out) origins)
    (hq : w.queue = (sym, depth) :: queue) (hdepth : depth < maxDepth) {n : Nat} {x : Symbol}
    (hx : ReachIn (Calls calleesOf) (· ∈ origins) n x) (ht : keyOf x ∈ targetKeys) :
    depth + 1 ≤ n := by
  by_contra hlt
  have hsorted := h.record.sorted
  rw [hq, List.pairwise_append, List.pairwise_cons] at hsorted
  refine h.seen halike (fun e he => ?_) (Nat.le_of_lt hdepth) (show n ≤ depth by omega) hx ht
  rw [hq] at he
  rcases List.mem_cons.mp he with rfl | he
  · exact Nat.le_refl depth
  · exact hsorted.2.1.1 e he

/-- An empty queue and no bound hit: every node reached has been seen. -/
theorem Inv.exhausted (h : Inv calleesOf origins targetKeys maxDepth done w hitBound)
    (halike : Bfs.Alike keyOf (fun s => (calleesOf s).out) origins) (hq : w.queue = [])
    (hb : hitBound = false) {n : Nat} {x : Symbol}
    (hx : ReachIn (Calls calleesOf) (· ∈ origins) n x) : keyOf x ∉ targetKeys := by
  obtain ⟨s, k, hs, hk, -⟩ := h.record.seen_of_reached halike (m := n) (fun s k hs _ => by
    rcases List.mem_append.mp hs with hs | hs
    · exact h.expanded s k hs (h.bound hb _ hs)
    · rw [hq] at hs; cases hs) hx (Nat.le_refl n)
  rw [← hk]
  exact h.targets _ hs

end

/-- What a report says of the symbols that call each other from `origins` on. -/
def Verdict (calleesOf : Symbol → Callees) (origins targets : List Symbol) (maxDepth : Nat)
    (report : CallPathReport) : Prop :=
  (report.found = true → Shortest calleesOf origins targets maxDepth report) ∧
    (report.found = false → report.bounded = false →
      ∀ n x, ReachIn (Calls calleesOf) (· ∈ origins) n x → keyOf x ∉ targets.map keyOf)

/-- The loop ends with a true report. Each iteration shortens the queue, or adds to `visited`, which
stops it from `MAX_VISITED` on. -/
theorem search_spec {calleesOf : Symbol → Callees} {origins targets : List Symbol}
    (halike : Bfs.Alike keyOf (fun s => (calleesOf s).out) origins) (req : CallPathRequest)
    (done : List (Symbol × Nat)) (w : Walk) (hitBound : Bool)
    (h : Inv calleesOf origins (targets.map keyOf) req.maxDepth done w hitBound) :
    ∃ report, (∃ enough, ∀ fuel ≥ enough,
      search calleesOf req (targets.map keyOf) (origins.map keyOf) fuel w hitBound = some report) ∧
      Verdict calleesOf origins targets req.maxDepth report := by
  have hsuccs : ∀ {enough fuel : Nat}, enough + 1 ≤ fuel → ∃ k, fuel = k + 1 ∧ enough ≤ k :=
    fun {enough fuel} hle => ⟨fuel - 1, by omega, by omega⟩
  cases hq : w.queue with
  | nil =>
    refine ⟨unfound (unfoundNote req hitBound) hitBound, ⟨0 + 1, fun fuel hfuel => ?_⟩, ?_⟩
    · obtain ⟨k, rfl, -⟩ := hsuccs hfuel
      rw [search, hq]
    · refine ⟨by simp [unfound], fun _ hb n x hx => ?_⟩
      exact h.exhausted halike hq hb hx
  | cons e queue =>
    obtain ⟨sym, depth⟩ := e
    by_cases hdepth : depth ≥ req.maxDepth
    · obtain ⟨report, ⟨enough, hrun⟩, hv⟩ := search_spec halike req (done ++ [(sym, depth)])
        { w with queue := queue } true (h.skip hq hdepth)
      refine ⟨report, ⟨enough + 1, fun fuel hfuel => ?_⟩, hv⟩
      obtain ⟨k, rfl, hk⟩ := hsuccs hfuel
      rw [search, hq]
      simp only [if_pos hdepth]
      exact hrun k hk
    · by_cases hfull : w.visited.length ≥ maxVisited
      · refine ⟨unfound (unfoundNote req true) true, ⟨0 + 1, fun fuel hfuel => ?_⟩, ?_⟩
        · obtain ⟨k, rfl, -⟩ := hsuccs hfuel
          rw [search, hq]
          simp only [if_neg hdepth, if_pos hfull]
        · exact ⟨by simp [unfound], by simp [unfound]⟩
      · have hlt : depth < req.maxDepth := Nat.lt_of_not_le hdepth
        have hspec := examine_spec (calleesOf sym).out _ (h.mid hq) fun _ hc => hc
        cases hr : examine (targets.map keyOf) sym depth (calleesOf sym).out { w with queue := queue } with
        | inl r =>
          obtain ⟨d, parents⟩ := r
          rw [hr] at hspec
          obtain ⟨ht, line, w', hd, rfl, hmid⟩ := hspec
          obtain ⟨chain, hrec, hlen, htrail, hhead, t, hlast, rfl⟩ := hmid.reconstruct hd ht
          refine ⟨{
              found := true
              steps := chain.map fun c => stepOf c.1 c.2
              length := (chain.map fun c => stepOf c.1 c.2).length - 1
              note := if hitBound || (calleesOf sym).bounded then some ("A call chain was found, " ++
                "but a resolution bound may have hidden a shorter chain.") else none
              bounded := hitBound || (calleesOf sym).bounded
              countsFloor := true }, ⟨depth + 2 + 1, fun fuel hfuel => ?_⟩, ?_⟩
          · obtain ⟨k, rfl, hk⟩ := hsuccs hfuel
            rw [search, hq]
            simp only [if_neg hdepth, if_neg hfull, hr, hrec k (by omega), Option.map_some]
            rfl
          · refine ⟨fun _ => ⟨⟨chain, rfl, htrail, hhead, t, hlast, ht⟩, ?_, ?_, ?_⟩, by simp⟩
            · simp [hlen]
            · simp only [List.length_map, hlen]
              omega
            · intro n x hx hxt
              simp only [List.length_map, hlen]
              exact h.found halike hq hlt hx hxt
        | inr w' =>
          rw [hr] at hspec
          obtain ⟨hmid, ⟨new, hnew, hvis⟩, hseen⟩ := hspec
          have hinv := h.next hq hlt hmid hnew hseen (hitBound || (calleesOf sym).bounded)
            (by simp only [Bool.or_eq_false_iff]; exact And.left)
          obtain ⟨report, ⟨enough, hrun⟩, hv⟩ := search_spec halike req _ w' _ hinv
          refine ⟨report, ⟨enough + 1, fun fuel hfuel => ?_⟩, hv⟩
          obtain ⟨k, rfl, hk⟩ := hsuccs hfuel
          rw [search, hq]
          simp only [if_neg hdepth, if_neg hfull, hr]
          exact hrun k hk
termination_by (maxVisited - w.visited.length, w.queue.length)
decreasing_by
  · rw [hq]
    exact Prod.Lex.right _ (Nat.lt_succ_self _)
  · rw [hnew, hvis, hq]
    cases new with
    | nil =>
      simp only [List.map_nil, List.append_nil]
      exact Prod.Lex.right _ (Nat.lt_succ_self _)
    | cons e new =>
      refine Prod.Lex.left _ _ ?_
      simp only [List.length_append, List.length_map, List.length_cons]
      omega

/-- For endpoints that are definitions: the trace ends, a chain it reports is a shortest one, and a
miss without a bound means that no target is reached, if definitions that share an identity have
the same callees. -/
theorem trace_call_path_correct {ε : Type} (resolveEndpoint : String → Except ε Endpoint)
    (calleesOf : Symbol → Callees) (req : CallPathRequest) (origins targets : List Symbol)
    (hfrom : resolveEndpoint req.fromName = .ok (.found origins))
    (hto : resolveEndpoint req.toName = .ok (.found targets))
    (halike : Bfs.Alike keyOf (fun s => (calleesOf s).out) origins) :
    ∃ report, (∃ enough, ∀ fuel ≥ enough,
      traceCallPath fuel resolveEndpoint calleesOf req = .ok report) ∧
      Verdict calleesOf origins targets req.maxDepth report := by
  have hempty : Started [] (targets.map keyOf) {} := ⟨rfl, rfl, List.nodup_nil, by simp, by simp⟩
  have hstart := start_spec origins [] {} hempty
  cases hr : start (targets.map keyOf) origins {} with
  | inl o =>
    rw [hr] at hstart
    refine ⟨{
        found := true
        steps := [stepOf o none]
        length := 0
        note := some "origin and target are the same symbol"
        bounded := false
        countsFloor := true }, ⟨0, fun fuel _ => ?_⟩, fun _ => ?_, by simp⟩
    · simp only [traceCallPath, hfrom, hto, hr]
    · exact ⟨⟨[(o, none)], rfl, List.IsChain.singleton _, ⟨_, rfl, hstart.1⟩, _, rfl, hstart.2⟩, rfl,
        Nat.zero_le _, fun n x _ _ => Nat.zero_le n⟩
  | inr w =>
    rw [hr, List.nil_append] at hstart
    obtain ⟨report, ⟨enough, hrun⟩, hv⟩ := search_spec halike req [] w false (hstart.inv req.maxDepth)
    refine ⟨report, ⟨enough, fun fuel hfuel => ?_⟩, hv⟩
    simp only [traceCallPath, hfrom, hto, hr, hrun fuel hfuel]

section Overloads

/-- `main` calls the first `f` and `helper`; `helper` calls the second `f`, which calls `g`. -/
def main : Symbol := ⟨"main", "main", "main.js", 1, 4, false⟩

def helper : Symbol := ⟨"helper", "helper", "main.js", 6, 8, false⟩

/-- Two definitions of `f` that start on one line. -/
def firstF : Symbol := ⟨"f", "f", "util.js", 1, 1, true⟩

def secondF : Symbol := ⟨"f", "f", "util.js", 1, 4, true⟩

def g : Symbol := ⟨"g", "g", "util.js", 6, 6, false⟩

def endpoints (input : String) : Except Unit Endpoint :=
  if input = "main" then .ok (.found [main])
  else if input = "g" then .ok (.found [g])
  else .ok (.missing ("symbol '" ++ input ++ "' not found"))

def overloadedCalls (s : Symbol) : Callees :=
  if s = main then ⟨[(firstF, 2), (helper, 3)], false⟩
  else if s = helper then ⟨[(secondF, 7)], false⟩
  else if s = secondF then ⟨[(g, 2)], false⟩
  else ⟨[], false⟩

def mainToG : CallPathRequest := ⟨"main", "g", 6⟩

/-- The second `f` is taken for the first, and the chain through it is missed without a bound. -/
theorem overload_missed :
    traceCallPath 10 endpoints overloadedCalls mainToG =
        .ok (unfound (unfoundNote mainToG false) false) ∧
      ¬ Verdict overloadedCalls [main] [g] 6 (unfound (unfoundNote mainToG false) false) := by
  refine ⟨by decide +kernel, fun h => ?_⟩
  refine h.2 rfl rfl 3 g ⟨secondF, ⟨helper, ⟨main, List.mem_cons_self .., 3, ?_⟩, 7, ?_⟩, 2, ?_⟩ (by simp)
  · decide
  · decide
  · decide

def plainCalls (s : Symbol) : Callees :=
  if s = main then ⟨[(helper, 3)], false⟩
  else if s = helper then ⟨[(g, 7)], false⟩
  else ⟨[], false⟩

/-- Without overloads the chain is found. -/
theorem trace_call_path_correct_plain :
    endpoints mainToG.fromName = .ok (.found [main]) ∧
      endpoints mainToG.toName = .ok (.found [g]) ∧
      Bfs.Alike keyOf (fun s => (plainCalls s).out) [main] ∧
      ∃ report, (∃ enough, ∀ fuel ≥ enough,
        traceCallPath fuel endpoints plainCalls mainToG = .ok report) ∧
        Verdict plainCalls [main] [g] mainToG.maxDepth report := by
  have hreach : ∀ n x, ReachIn (Calls plainCalls) (· ∈ [main]) n x → x = main ∨ x = helper ∨ x = g := by
    intro n x hx
    refine hx.invariant (P := fun _ x => x = main ∨ x = helper ∨ x = g) (by simp) ?_
    rintro _ x y - hx ⟨l, hy⟩
    rcases hx with rfl | rfl | rfl
    · exact .inr (.inl (congrArg Prod.fst (List.mem_singleton.mp hy)))
    · exact .inr (.inr (congrArg Prod.fst (List.mem_singleton.mp hy)))
    · cases hy
  have halike : Bfs.Alike keyOf (fun s => (plainCalls s).out) [main] := by
    intro a b m n ha hb hk c hc
    have : a = b := by
      rcases hreach m a ha with rfl | rfl | rfl <;> rcases hreach n b hb with rfl | rfl | rfl <;>
        first | rfl | exact absurd hk (by decide)
    exact ⟨c, this ▸ hc, rfl⟩
  exact ⟨rfl, rfl, halike, trace_call_path_correct endpoints plainCalls mainToG [main] [g] rfl rfl halike⟩

end Overloads

end CallPath
end Graph
end CodeSage
