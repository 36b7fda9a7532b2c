import CodeSage.Graph.Session
import CodeSage.Graph.CycleGuidanceCorrect

/-!
# CodeSage.Graph.SessionCorrect

When the session gate blames only introduced cycles. Cycles are compared by their members, so what is left of a cycle
that lost a file counts as a new one.
-/

namespace CodeSage
namespace Graph
namespace Session

open Scc CycleGuidance

section Spec

/-- Each file imports the other, over any number of files. -/
def Mutual (edges : Edges) (a b : String) : Prop := Reaches edges a b ∧ Reaches edges b a

/-- The gate says "introduced" of a cycle only if one of its edges was. -/
structure BlamesIntroduced (before after : Edges) (diff : SessionDiff) : Prop where
  introduced : ∀ c ∈ diff.newCycles, ∃ e ∈ after, e.1 ∈ c ∧ e.2 ∈ c ∧ e.1 ≠ e.2 ∧ e ∉ before
  removal : after ⊆ before → diff.newCycles = []

/-- Files that import each other after the session, over imports that were all there before it, had no further file with
them that they have lost. -/
def KeptWhole (before after : Edges) : Prop :=
  ∀ u v, u ≠ v → Mutual after u v → (∀ e ∈ after, Mutual after u e.1 → Mutual after u e.2 → e ∈ before) →
    ∀ w, Mutual before u w → Mutual after u w

/-- The sorted members of a component with two files at least. -/
structure IsCycle (edges : Edges) (c : List String) : Prop where
  sorted : c.Pairwise (· ≤ ·)
  nodup : c.Nodup
  size : 2 ≤ c.length
  same : ∀ a ∈ c, ∀ b, b ∈ c ↔ Mutual edges a b

end Spec

section Sorting

theorem mem_sortMembers {members : List String} {f : String} : f ∈ sortMembers members ↔ f ∈ members :=
  (List.mergeSort_perm members _).mem_iff

theorem sortMembers_sorted (members : List String) : (sortMembers members).Pairwise (· ≤ ·) := by
  have hsorted := @List.pairwise_mergeSort _ (fun a b : String => decide (a ≤ b))
    (fun a b c hab hbc => decide_eq_true (le_trans (of_decide_eq_true hab) (of_decide_eq_true hbc)))
    (fun a b => by simpa using le_total a b) members
  exact hsorted.imp fun h => of_decide_eq_true h

theorem eq_of_sorted {c d : List String} (hc : c.Pairwise (· ≤ ·)) (hd : d.Pairwise (· ≤ ·)) (hperm : c.Perm d) :
    c = d :=
  List.Perm.eq_of_pairwise (fun _ _ _ _ hab hba => le_antisymm hab hba) hc hd hperm

theorem mem_cyclesOnlyIn {cycles others : List (List String)} {c : List String} :
    c ∈ cyclesOnlyIn cycles others ↔ c ∈ cycles ∧ c ∉ others := by
  rw [cyclesOnlyIn, (List.mergeSort_perm _ _).mem_iff, List.mem_dedup, List.mem_filter]
  simp

end Sorting

section Cycles

variable {edges before after : Edges} {c d : List String}

theorem Mutual.symm {a b : String} (h : Mutual edges a b) : Mutual edges b a := ⟨h.2, h.1⟩

theorem Mutual.trans {a b x : String} (hab : Mutual edges a b) (hbx : Mutual edges b x) : Mutual edges a x :=
  ⟨hab.1.trans hbx.1, hbx.2.trans hab.2⟩

/-- A file that reaches another one is in the graph. -/
theorem occurs_of_mutual {a b : String} (hne : a ≠ b) (h : Mutual edges a b) : Occurs edges a := by
  rcases Relation.ReflTransGen.cases_head h.1 with heq | ⟨x, hedge, -⟩
  · exact (hne heq).elim
  · exact ⟨(a, x), hedge, .inl rfl⟩

/-- Two members of a cycle. -/
theorem IsCycle.two (h : IsCycle edges c) : ∃ u v, u ≠ v ∧ u ∈ c ∧ v ∈ c := by
  obtain ⟨-, hnodup, hsize, -⟩ := h
  match c with
  | [] | [_] => simp at hsize
  | u :: v :: rest =>
    refine ⟨u, v, ?_, List.mem_cons_self, List.mem_cons_of_mem _ List.mem_cons_self⟩
    rintro rfl
    exact (List.nodup_cons.mp hnodup).1 List.mem_cons_self

/-- Cycles with the same members are the same list. -/
theorem IsCycle.eq (hc : IsCycle before c) (hd : IsCycle after d) (hsame : ∀ f, f ∈ c ↔ f ∈ d) : c = d :=
  eq_of_sorted hc.sorted hd.sorted ((List.perm_ext_iff_of_nodup hc.nodup hd.nodup).mpr hsame)

theorem isCycle_of_component {comps : List (List String)} (h : Components edges comps) {comp : List String}
    (hcomp : comp ∈ comps) (hlen : 2 ≤ comp.length) : IsCycle edges (sortMembers comp) where
  sorted := sortMembers_sorted comp
  nodup := (List.mergeSort_perm comp _).nodup_iff.mpr (List.nodup_flatten.mp h.nodup |>.1 comp hcomp)
  size := by rwa [sortMembers, List.length_mergeSort]
  same a ha b := by
    rw [mem_sortMembers]
    exact h.same comp hcomp a (mem_sortMembers.mp ha) b

theorem computeCycles_components {fuel : Nat} {cycles : List (List String)}
    (hrun : computeCycles fuel edges = .ok cycles) : ∃ comps, Components edges comps ∧
      ∀ c, c ∈ cycles ↔ ∃ comp ∈ comps, 2 ≤ comp.length ∧ sortMembers comp = c := by
  rw [computeCycles] at hrun
  rcases hload : ImportCycles.load fuel edges with stop | loaded
  · rw [hload] at hrun
    cases hrun
  · rw [hload] at hrun
    cases hrun
    refine ⟨loaded.components, (load_components hload).1, fun c => ?_⟩
    rw [(List.mergeSort_perm _ _).mem_iff, List.mem_map]
    simp only [List.mem_filter, decide_eq_true_eq, and_assoc]

theorem isCycle_of_mem {fuel : Nat} {cycles : List (List String)} (hrun : computeCycles fuel edges = .ok cycles)
    (hc : c ∈ cycles) : IsCycle edges c := by
  obtain ⟨comps, hcomps, hcycles⟩ := computeCycles_components hrun
  obtain ⟨comp, hcomp, hlen, rfl⟩ := (hcycles c).mp hc
  exact isCycle_of_component hcomps hcomp hlen

/-- Two files that import each other are in a cycle. -/
theorem exists_cycle {fuel : Nat} {cycles : List (List String)} (hrun : computeCycles fuel edges = .ok cycles)
    {u v : String} (hne : u ≠ v) (h : Mutual edges u v) : ∃ c ∈ cycles, u ∈ c := by
  obtain ⟨comps, hcomps, hcycles⟩ := computeCycles_components hrun
  obtain ⟨comp, hcomp, hu⟩ := List.mem_flatten.mp ((hcomps.members u).mpr (occurs_of_mutual hne h))
  have hv : v ∈ comp := (hcomps.same comp hcomp u hu v).mpr h
  have hlen : 2 ≤ comp.length := by
    match comp with
    | [] => simp at hu
    | [x] =>
      rw [List.mem_singleton] at hu hv
      exact (hne (hu.trans hv.symm)).elim
    | _ :: _ :: _ => simp
  exact ⟨sortMembers comp, (hcycles _).mpr ⟨comp, hcomp, hlen, rfl⟩, mem_sortMembers.mpr hu⟩

/-- `compute_cycles` lists the cycles of the graph. -/
theorem mem_computeCycles {fuel : Nat} {cycles : List (List String)} (hrun : computeCycles fuel edges = .ok cycles) :
    c ∈ cycles ↔ IsCycle edges c := by
  refine ⟨isCycle_of_mem hrun, fun h => ?_⟩
  obtain ⟨u, v, hne, hu, hv⟩ := h.two
  obtain ⟨d, hd, hud⟩ := exists_cycle hrun hne ((h.same u hu v).mp hv)
  have hcycle := isCycle_of_mem hrun hd
  exact h.eq hcycle (fun f => (h.same u hu f).trans (hcycle.same u hud f).symm) ▸ hd

/-- A cycle whose edges were all there before is connected in the graph of before. -/
theorem IsCycle.mutual_before (hc : IsCycle after c) (hold : ∀ e ∈ after, e.1 ∈ c → e.2 ∈ c → e ∈ before)
    {a b : String} (ha : a ∈ c) (hb : b ∈ c) : Mutual before a b := by
  have hpath : ∀ {x y}, x ∈ c → y ∈ c → Reaches before x y := by
    intro x y hx hy
    have hxy : Reaches after x y := ((hc.same x hx y).mp hy).1
    revert hx
    induction hxy using Relation.ReflTransGen.head_induction_on with
    | refl => exact fun _ => .refl
    | @head p q hedge hrest ih =>
      intro hp
      have hq : q ∈ c := (hc.same p hp q).mpr ⟨.single hedge, hrest.trans ((hc.same y hy p).mp hp).1⟩
      exact .head (hold (p, q) hedge hp hq) (ih hq)
  exact ⟨hpath ha hb, hpath hb ha⟩

end Cycles

section Main

variable {before after : Edges}

/-- The cycles that `session_end` calls new. -/
theorem mem_newCycles {showDelta : ℚ → String} {riskScores : List String → List SessionRiskEntry × Bool}
    {fuelStart fuelEnd : Nat} {files nowFiles : List String} {topRisk : List SessionRiskEntry}
    {snapshot : SessionSnapshot} {diff : SessionDiff}
    (hstart : buildSessionSnapshot fuelStart files before topRisk = .ok snapshot)
    (hend : sessionEnd showDelta riskScores fuelEnd snapshot nowFiles after = .ok diff) (c : List String) :
    c ∈ diff.newCycles ↔ IsCycle after c ∧ ¬IsCycle before c := by
  rw [buildSessionSnapshot] at hstart
  rw [sessionEnd] at hend
  rcases hbefore : computeCycles fuelStart before with stop | cycles
  · rw [hbefore] at hstart
    cases hstart
  · rw [hbefore] at hstart
    cases hstart
    rcases hafter : computeCycles fuelEnd after with stop | nowCycles
    · rw [hafter] at hend
      cases hend
    · rw [hafter] at hend
      cases hend
      rw [mem_cyclesOnlyIn, mem_computeCycles hafter, mem_computeCycles hbefore]

/-- A cycle with only old edges is new to the gate just if it was part of a larger one. -/
theorem introduced_iff_keptWhole {fuel : Nat} {cycles : List (List String)}
    (hrun : computeCycles fuel after = .ok cycles) :
    (∀ c, IsCycle after c → ¬IsCycle before c → ∃ e ∈ after, e.1 ∈ c ∧ e.2 ∈ c ∧ e ∉ before) ↔
      KeptWhole before after := by
  constructor
  · intro hnew u v hne huv hold w hw
    obtain ⟨c, hmem, hu⟩ := exists_cycle hrun hne huv
    have hc := isCycle_of_mem hrun hmem
    have hwas : IsCycle before c := by
      by_contra hnot
      obtain ⟨e, he, h1, h2, hfresh⟩ := hnew c hc hnot
      exact hfresh (hold e he ((hc.same u hu _).mp h1) ((hc.same u hu _).mp h2))
    exact (hc.same u hu w).mp ((hwas.same u hu w).mpr hw)
  · intro hkept c hc hnot
    by_contra hall
    have hold : ∀ e ∈ after, e.1 ∈ c → e.2 ∈ c → e ∈ before := by
      intro e he h1 h2
      by_contra hfresh
      exact hall ⟨e, he, h1, h2, hfresh⟩
    refine hnot { hc with same := fun a ha b => ⟨fun hb => hc.mutual_before hold ha hb, fun hab => ?_⟩ }
    obtain ⟨v, hne, hv⟩ : ∃ v, a ≠ v ∧ v ∈ c := by
      obtain ⟨u, v, hne, hu, hv⟩ := hc.two
      rcases eq_or_ne a u with rfl | ha'
      · exact ⟨v, hne, hv⟩
      · exact ⟨u, ha', hu⟩
    have hkeep := hkept a v hne ((hc.same a ha v).mp hv)
      (fun e he h1 h2 => hold e he ((hc.same a ha _).mpr h1) ((hc.same a ha _).mpr h2)) b hab
    exact (hc.same a ha b).mpr hkeep

theorem mem_keys_add {s : PairSet} {pair e : String × String} {lazyOnly : Bool}
    (he : e ∈ (PairSet.add s pair lazyOnly).keys) : e ∈ s.keys ∨ e.1 ≠ e.2 := by
  rw [PairSet.add] at he
  split at he
  · exact .inl he
  · next hskip =>
    have hmem : e = pair ∨ e ∈ s := by
      split at he <;> exact (AList.mem_insert s).mp he
    rcases hmem with rfl | hold
    · exact .inr fun heq => hskip (by simp [heq])
    · exact .inl hold

/-- No file imports itself in a load-time graph. -/
theorem eagerPairs_distinct (directives : List ((String × String) × Bool)) :
    ∀ e ∈ eagerPairs (pairSet directives), e.1 ≠ e.2 := by
  have hkeys : ∀ s : PairSet, (∀ e ∈ s.keys, e.1 ≠ e.2) →
      ∀ e ∈ (directives.foldl (fun s d => PairSet.add s d.1 d.2) s).keys, e.1 ≠ e.2 := by
    induction directives with
    | nil => exact fun _ h => h
    | cons d rest ih => exact fun s hs => ih _ fun e he => (mem_keys_add he).elim (hs e) id
  intro e he
  rw [eagerPairs, (List.mergeSort_perm _ _).mem_iff] at he
  exact hkeys ∅ (by simp) e (List.mem_filter.mp he).1

/-- The gate blames only introduced cycles just if the session broke no cycle into smaller ones that it left alone. -/
theorem blames_introduced_iff (showDelta : ℚ → String) (riskScores : List String → List SessionRiskEntry × Bool)
    (startDirectives endDirectives : List ((String × String) × Bool)) (fuelStart fuelEnd : Nat)
    (files nowFiles : List String) (topRisk : List SessionRiskEntry) {snapshot : SessionSnapshot} {diff : SessionDiff}
    (hstart : buildSessionSnapshot fuelStart files (eagerPairs (pairSet startDirectives)) topRisk = .ok snapshot)
    (hend : sessionEnd showDelta riskScores fuelEnd snapshot nowFiles (eagerPairs (pairSet endDirectives)) =
      .ok diff) :
    BlamesIntroduced (eagerPairs (pairSet startDirectives)) (eagerPairs (pairSet endDirectives)) diff ↔
      KeptWhole (eagerPairs (pairSet startDirectives)) (eagerPairs (pairSet endDirectives)) := by
  have hnew := mem_newCycles hstart hend
  obtain ⟨cycles, hrun⟩ : ∃ cycles, computeCycles fuelEnd (eagerPairs (pairSet endDirectives)) = .ok cycles := by
    rw [sessionEnd] at hend
    rcases hafter : computeCycles fuelEnd (eagerPairs (pairSet endDirectives)) with stop | cycles
    · rw [hafter] at hend
      cases hend
    · exact ⟨cycles, rfl⟩
  rw [← introduced_iff_keptWhole hrun]
  constructor
  · rintro ⟨hintroduced, -⟩ c hc hnot
    obtain ⟨e, he, h1, h2, -, hfresh⟩ := hintroduced c ((hnew c).mpr ⟨hc, hnot⟩)
    exact ⟨e, he, h1, h2, hfresh⟩
  · intro h
    refine ⟨fun c hc => ?_, fun hsub => List.eq_nil_iff_forall_not_mem.mpr fun c hc => ?_⟩
    · obtain ⟨e, he, h1, h2, hfresh⟩ := h c ((hnew c).mp hc).1 ((hnew c).mp hc).2
      exact ⟨e, he, h1, h2, eagerPairs_distinct endDirectives e he, hfresh⟩
    · obtain ⟨e, he, -, -, hfresh⟩ := h c ((hnew c).mp hc).1 ((hnew c).mp hc).2
      exact hfresh (hsub he)

end Main

section Example

/-- Three files of which the middle one imports both others, and they it. -/
def chainDirectives : List ((String × String) × Bool) :=
  [(("c.py", "b.py"), false), (("b.py", "c.py"), false), (("b.py", "a.py"), false), (("a.py", "b.py"), false)]

/-- The third file and the second stopped importing each other. -/
def cutDirectives : List ((String × String) × Bool) := [(("b.py", "a.py"), false), (("a.py", "b.py"), false)]

/-- A run up to its only cycle. -/
def RunsToCycle (directives : List ((String × String) × Bool)) (component cycle : List String) : Prop :=
  let edges := directives.reverse.map Prod.fst
  (((pairSet directives).keys.filter fun pair => (pairSet directives).lookup pair = some false) = edges ∧
    edges.Pairwise fun a b => pairLe a b = true) ∧
  tarjanScc 50 edges = .ok [component] ∧ 2 ≤ component.length ∧ component.insertionSort (· ≤ ·) = cycle

instance (directives : List ((String × String) × Bool)) (component cycle : List String) :
    Decidable (RunsToCycle directives component cycle) := inferInstanceAs (Decidable (_ ∧ _))

theorem chain_and_cut_run : RunsToCycle chainDirectives ["c.py", "b.py", "a.py"] ["a.py", "b.py", "c.py"] ∧
    RunsToCycle cutDirectives ["b.py", "a.py"] ["a.py", "b.py"] := by
  decide

theorem RunsToCycle.eagerPairs {directives : List ((String × String) × Bool)} {component cycle : List String}
    (h : RunsToCycle directives component cycle) :
    eagerPairs (pairSet directives) = directives.reverse.map Prod.fst :=
  eagerPairs_of_sorted h.1.1 h.1.2

theorem RunsToCycle.computeCycles {directives : List ((String × String) × Bool)} {component cycle : List String}
    (h : RunsToCycle directives component cycle) :
    computeCycles 50 (CycleGuidance.eagerPairs (pairSet directives)) = .ok [cycle] := by
  obtain ⟨-, hrun, hlen, hsort⟩ := id h
  have hmembers : sortMembers component = cycle := (List.mergeSort_eq_insertionSort (· ≤ ·) component).trans hsort
  simp only [h.eagerPairs, Session.computeCycles, ImportCycles.load, hrun]
  simp [hlen, hmembers]

/-- The two ends of a session that cut the chain. -/
def CutSession (snapshot : SessionSnapshot) (diff : SessionDiff) : Prop :=
  buildSessionSnapshot 50 ["a.py", "b.py", "c.py"] (eagerPairs (pairSet chainDirectives)) [] = .ok snapshot ∧
  sessionEnd (fun _ => "0.00") (fun _ => ([], false)) 50 snapshot ["a.py", "b.py", "c.py"]
    (eagerPairs (pairSet cutDirectives)) = .ok diff

theorem cutSession_runs : ∃ snapshot diff, CutSession snapshot diff ∧
    diff.newCycles = [["a.py", "b.py"]] ∧ diff.pass = false := by
  obtain ⟨hchain, hcut⟩ := chain_and_cut_run
  simp only [CutSession, buildSessionSnapshot, hchain.computeCycles, sessionEnd, hcut.computeCycles]
  refine ⟨_, _, ⟨rfl, rfl⟩, ?_, ?_⟩
  · simp [cyclesOnlyIn]
  · simp [cyclesOnlyIn]

theorem cut_subset : eagerPairs (pairSet cutDirectives) ⊆ eagerPairs (pairSet chainDirectives) := by
  rw [chain_and_cut_run.1.eagerPairs, chain_and_cut_run.2.eagerPairs]
  decide

/-- A session that only removed imports is failed for what is left of the old cycle. -/
theorem remainder_called_new : ∃ snapshot diff, CutSession snapshot diff ∧
    eagerPairs (pairSet cutDirectives) ⊆ eagerPairs (pairSet chainDirectives) ∧
    diff.newCycles = [["a.py", "b.py"]] ∧ diff.pass = false ∧
    ¬BlamesIntroduced (eagerPairs (pairSet chainDirectives)) (eagerPairs (pairSet cutDirectives)) diff := by
  obtain ⟨snapshot, diff, hsession, hnew, hpass⟩ := cutSession_runs
  refine ⟨snapshot, diff, hsession, cut_subset, hnew, hpass, fun hblames => ?_⟩
  have hnone := hblames.removal cut_subset
  rw [hnew] at hnone
  cases hnone

theorem blames_introduced_iff_for_a_cut : ∃ snapshot diff, CutSession snapshot diff ∧
    (BlamesIntroduced (eagerPairs (pairSet chainDirectives)) (eagerPairs (pairSet cutDirectives)) diff ↔
      KeptWhole (eagerPairs (pairSet chainDirectives)) (eagerPairs (pairSet cutDirectives))) := by
  obtain ⟨snapshot, diff, hsession, -⟩ := cutSession_runs
  exact ⟨snapshot, diff, hsession, blames_introduced_iff (fun _ => "0.00") (fun _ => ([], false)) chainDirectives
    cutDirectives 50 50 _ _ [] hsession.1 hsession.2⟩

end Example

end Session
end Graph
end CodeSage
