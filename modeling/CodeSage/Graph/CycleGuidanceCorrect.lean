import CodeSage.Graph.CycleGuidance
import CodeSage.Graph.SccCorrect
import CodeSage.Lib.Removal
import Mathlib.Data.List.Sort

/-!
# CodeSage.Graph.CycleGuidanceCorrect

When the advice for a cycle is true. The choice goes by degrees and the number of edges, the advice speaks of paths: a
chord can be named as break point, and a cycle with a bottleneck be called unbreakable.
-/

namespace CodeSage
namespace Graph
namespace CycleGuidance

open Scc Lib

section Spec

/-- The load-time pairs between the files of a component. -/
def internalEdges (eager : Edges) (members : List String) : Edges :=
  eager.filter fun e => members.contains e.1 && members.contains e.2

/-- What the advice says of a component. -/
def GuidanceTrue (members : List String) (edges : Edges) : Option Guidance → Prop
  | some (.breakPoint e _) => ¬Removal.StronglyConnected members (Removal.without e edges)
  | some (.hubDominated _) => ∀ e ∈ edges, Removal.HasCycle (Removal.without e edges)
  | none => True

/-- In a component taken for a ring the lightest edge is the only one that leaves some set of files; in another one two
edges at least do not go up, however the files are ranked. -/
structure Truthful (members : List String) (edges : Edges) (weight : String × String → ℚ) : Prop where
  ring : ringLike edges members.length = true → ∀ e ∈ edges, (∀ d ∈ edges, breakKey weight e ≤ breakKey weight d) →
    Removal.SoleExit edges e
  hub : ringLike edges members.length = false → ∀ rank : String → Nat, 2 ≤ (Removal.backEdges rank edges).length

end Spec

section Component

variable {eager : Edges} {comps : List (List String)} {comp : List String}

/-- A component that holds one member holds them all. -/
theorem mem_iff_mem (h : Components eager comps) (hcomp : comp ∈ comps) {a b : String} (ha : a ∈ comp) (hb : b ∈ comp)
    {other : List String} (hother : other ∈ comps) : a ∈ other ↔ b ∈ other := by
  have hab := (h.same comp hcomp a ha b).mp hb
  exact ⟨fun hmem => (h.same other hother a hmem b).mpr hab, fun hmem => (h.same other hother b hmem a).mpr hab.symm⟩

theorem sameComponent_of_mem (h : Components eager comps) (hcomp : comp ∈ comps) (hlen : 2 ≤ comp.length) {a b : String}
    (ha : a ∈ comp) (hb : b ∈ comp) : sameComponent comps (a, b) = true := by
  have hlarge : ∀ c ∈ (comps.zipIdx.filter fun c => 2 ≤ c.1.length).reverse, c.1 ∈ comps := by
    intro c hc
    have hmem := (List.mem_filter.mp (List.mem_reverse.mp hc)).1
    exact List.mem_of_getElem? (List.mem_zipIdx_iff_getElem?.mp hmem)
  have hindex : componentIndex comps a = componentIndex comps b := by
    rw [componentIndex, componentIndex, ← List.head?_filter, ← List.head?_filter]
    refine congrArg _ (congrArg _ (List.filter_congr fun c hc => ?_))
    rw [Bool.eq_iff_iff, List.contains_iff_mem, List.contains_iff_mem]
    exact mem_iff_mem h hcomp ha hb (hlarge c hc)
  have hsome : (componentIndex comps b).isSome := by
    rw [componentIndex, Option.isSome_map, List.find?_isSome]
    obtain ⟨i, hi, hat⟩ := List.mem_iff_getElem.mp hcomp
    refine ⟨(comp, i), List.mem_reverse.mpr (List.mem_filter.mpr ⟨?_, decide_eq_true hlen⟩), ?_⟩
    · exact List.mem_zipIdx_iff_getElem?.mpr (by rw [List.getElem?_eq_getElem hi, hat])
    · rwa [List.contains_iff_mem]
  rw [sameComponent, hindex]
  obtain ⟨i, hi⟩ := Option.isSome_iff_exists.mp hsome
  rw [hi]
  simp

theorem edgesWithin_eq (h : Components eager comps) (hcomp : comp ∈ comps) (hlen : 2 ≤ comp.length)
    {members : List String} (hmembers : ∀ x, x ∈ members ↔ x ∈ comp) :
    ImportCycles.edgesWithin ⟨comps, eager.filter (sameComponent comps)⟩ members = internalEdges eager members := by
  rw [ImportCycles.edgesWithin, internalEdges, List.filter_filter]
  refine List.filter_congr fun e _ => ?_
  rw [Bool.and_eq_left_iff_imp]
  intro hboth
  rw [Bool.and_eq_true, List.contains_iff_mem, List.contains_iff_mem, hmembers, hmembers] at hboth
  exact sameComponent_of_mem h hcomp hlen hboth.1 hboth.2

theorem mem_internalEdges {members : List String} {e : String × String} :
    e ∈ internalEdges eager members ↔ e ∈ eager ∧ e.1 ∈ members ∧ e.2 ∈ members := by
  rw [internalEdges, List.mem_filter, Bool.and_eq_true, List.contains_iff_mem, List.contains_iff_mem]

/-- The paths between the members of a component stay in it. -/
theorem internalEdges_connected (h : Components eager comps) (hcomp : comp ∈ comps) {members : List String}
    (hmembers : ∀ x, x ∈ members ↔ x ∈ comp) :
    Removal.StronglyConnected members (internalEdges eager members) := by
  intro x hx y hy
  have hback : ∀ {z}, z ∈ comp → Reaches eager y z := fun hz =>
    ((h.same comp hcomp y ((hmembers y).mp hy) _).mp hz).1
  have hpath : Reaches eager x y := ((h.same comp hcomp x ((hmembers x).mp hx) y).mp ((hmembers y).mp hy)).1
  revert hx
  induction hpath using Relation.ReflTransGen.head_induction_on with
  | refl => exact fun _ => .refl
  | @head a b hedge hrest ih =>
    intro ha
    have hb : b ∈ members := (hmembers b).mpr ((h.same comp hcomp a ((hmembers a).mp ha) b).mpr
      ⟨.single hedge, hrest.trans (hback ((hmembers a).mp ha))⟩)
    exact .head (mem_internalEdges.mpr ⟨hedge, ha, hb⟩) (ih hb)

theorem connected_nonempty {members : List String} {edges : Edges} (hconnected : Removal.StronglyConnected members edges)
    (hnodup : members.Nodup) (hlen : 2 ≤ members.length) : edges ≠ [] := by
  match members with
  | [] | [_] => simp at hlen
  | a :: b :: rest =>
    rintro rfl
    have hpath := hconnected a List.mem_cons_self b (List.mem_cons_of_mem _ List.mem_cons_self)
    rcases Relation.ReflTransGen.cases_head hpath with heq | ⟨_, hedge, -⟩
    · exact (List.nodup_cons.mp hnodup).1 (heq ▸ List.mem_cons_self)
    · exact List.not_mem_nil hedge

end Component

section Pairs

theorem eagerPairs_nodup (s : PairSet) : (eagerPairs s).Nodup := by
  rw [eagerPairs, (List.mergeSort_perm _ _).nodup_iff]
  exact s.keys_nodup.filter _

theorem load_components {fuel : Nat} {eager : Edges} {cycles : ImportCycles}
    (hload : ImportCycles.load fuel eager = .ok cycles) :
    Components eager cycles.components ∧ cycles.componentEdges = eager.filter (sameComponent cycles.components) := by
  obtain ⟨bound, hends⟩ := tarjanScc_ends eager
  rw [ImportCycles.load] at hload
  rcases hends fuel with ⟨comps, hrun, hcomps, -⟩ | ⟨hrun, -⟩ | ⟨hrun, -⟩
  · rw [hrun] at hload
    cases hload
    exact ⟨hcomps, rfl⟩
  · rw [hrun] at hload
    cases hload
  · rw [hrun] at hload
    cases hload

/-- The cycle of a file is a component with two members at least, the file among them. -/
theorem cycleEntryForFile_some {cycles : ImportCycles} {file : String} {members : List String}
    (hentry : cycleEntryForFile cycles file = some members) : ∃ comp ∈ cycles.components, 2 ≤ comp.length ∧
      file ∈ comp ∧ members.Perm comp := by
  obtain ⟨comp, hfind, rfl⟩ := Option.map_eq_some_iff.mp hentry
  have hprop := List.find?_some hfind
  rw [Bool.and_eq_true, decide_eq_true_eq, List.contains_iff_mem] at hprop
  exact ⟨comp, List.mem_of_find?_eq_some hfind, hprop.1, hprop.2, List.mergeSort_perm _ _⟩

end Pairs

section Main

variable {members : List String} {edges : Edges} {weight : String × String → ℚ}

theorem breakKey_injective : Function.Injective (breakKey weight) := by
  intro a b h
  exact congrArg (fun k => ofLex (ofLex k).2) h

/-- The advice for a strongly connected component. -/
theorem guidance_true_iff (hconnected : Removal.StronglyConnected members edges) (hne : edges ≠ []) (hnodup : edges.Nodup)
    (hinside : ∀ e ∈ edges, e.1 ∈ members ∧ e.2 ∈ members) :
    GuidanceTrue members edges (guidance edges members.length weight) ↔ Truthful members edges weight := by
  rw [guidance, if_neg (by simpa using hne)]
  by_cases hring : ringLike edges members.length = true
  · obtain ⟨e, he⟩ : ∃ e, weakest edges weight = some e := by
      rw [← Option.ne_none_iff_exists', weakest, ne_eq, List.argmin_eq_none]
      exact hne
    have hmem : e ∈ edges := List.argmin_mem he
    have hleast : ∀ d ∈ edges, breakKey weight e ≤ breakKey weight d := fun d hd => List.le_of_mem_argmin hd he
    rw [if_pos hring, he, Option.map_some, GuidanceTrue,
      Removal.not_stronglyConnected_without hconnected (hinside e hmem).1 (hinside e hmem).2]
    constructor
    · intro hexit
      refine ⟨fun _ d hd hlow => ?_, fun hhub => by rw [hring] at hhub; cases hhub⟩
      rw [breakKey_injective (le_antisymm (hlow e hmem) (hleast d hd))]
      exact hexit
    · exact fun h => h.ring hring e hmem hleast
  · rw [if_neg hring, GuidanceTrue, Removal.hasCycle_without_iff hne hnodup]
    exact ⟨fun hback => ⟨fun h => absurd h hring, fun _ => hback⟩, fun h => h.hub (by simpa using hring)⟩

/-- The advice of a file in a cycle of the import graph is true exactly when its component is truthful. -/
theorem cycleGuidance_true_iff (directives : List ((String × String) × Bool)) (fuel : Nat) {cycles : ImportCycles}
    (hload : ImportCycles.load fuel (eagerPairs (pairSet directives)) = .ok cycles) {file : String}
    (hentry : cycleEntryForFile cycles file = some members) (weight : String × String → ℚ) :
    GuidanceTrue members (internalEdges (eagerPairs (pairSet directives)) members)
        (cycleGuidance cycles weight (cycleFiles members file) file) ↔
      Truthful members (internalEdges (eagerPairs (pairSet directives)) members) weight := by
  obtain ⟨hcomps, hedges⟩ := load_components hload
  obtain ⟨comp, hcomp, hlen, hfile, hperm⟩ := cycleEntryForFile_some hentry
  have hmembers : ∀ x, x ∈ members ↔ x ∈ comp := fun x => hperm.mem_iff
  have hnodup : members.Nodup := by
    rw [hperm.nodup_iff]
    exact (List.nodup_flatten.mp hcomps.nodup).1 comp hcomp
  have hscc : (cycleFiles members file ++ [file]).Perm members := by
    have hnew : (cycleFiles members file ++ [file]).Nodup := by
      refine List.nodup_append.mpr ⟨hnodup.filter _, List.nodup_singleton _, fun a ha b hb heq => ?_⟩
      have hne := (List.mem_filter.mp ha).2
      rw [heq, List.mem_singleton.mp hb] at hne
      simp at hne
    refine (List.perm_ext_iff_of_nodup hnew hnodup).mpr fun x => ?_
    rw [List.mem_append, cycleFiles, List.mem_filter, List.mem_singleton, decide_eq_true_eq]
    by_cases hx : x = file
    · rw [hx]
      exact ⟨fun _ => (hmembers file).mpr hfile, fun _ => .inr rfl⟩
    · simp [hx]
  have hwithin : cycles.edgesWithin (cycleFiles members file ++ [file]) =
      internalEdges (eagerPairs (pairSet directives)) members := by
    have heq : cycles = ⟨cycles.components, (eagerPairs (pairSet directives)).filter (sameComponent cycles.components)⟩ := by
      rw [← hedges]
    rw [heq, edgesWithin_eq hcomps hcomp hlen fun x => hscc.mem_iff.trans (hmembers x), internalEdges, internalEdges]
    refine List.filter_congr fun e _ => ?_
    rw [Bool.eq_iff_iff, Bool.and_eq_true, Bool.and_eq_true]
    simp only [List.contains_iff_mem, hscc.mem_iff]
  have hconnected := internalEdges_connected hcomps hcomp hmembers
  rw [cycleGuidance, hwithin, hscc.length_eq]
  refine guidance_true_iff hconnected ?_ ((eagerPairs_nodup _).filter _) fun e he => (mem_internalEdges.mp he).2
  exact connected_nonempty hconnected hnodup (hperm.length_eq ▸ hlen)

end Main

section Example

/-- A ring of four files and a chord. -/
def chordDirectives : List ((String × String) × Bool) :=
  [(("d.py", "a.py"), false), (("c.py", "b.py"), false), (("b.py", "d.py"), false), (("a.py", "c.py"), false),
    (("a.py", "b.py"), false)]

def chordEdges : Edges := chordDirectives.reverse.map Prod.fst

def chordFiles : List String := ["a.py", "b.py", "c.py", "d.py"]

/-- Three cycles through one edge of a hub. -/
def bottleneckDirectives : List ((String × String) × Bool) :=
  [(("x.py", "r.py"), false), (("x.py", "q.py"), false), (("x.py", "p.py"), false), (("r.py", "hub.py"), false),
    (("q.py", "hub.py"), false), (("p.py", "hub.py"), false), (("hub.py", "x.py"), false)]

def bottleneckEdges : Edges := bottleneckDirectives.reverse.map Prod.fst

def bottleneckFiles : List String := ["hub.py", "p.py", "q.py", "r.py", "x.py"]

theorem eagerPairs_of_sorted {s : PairSet} {edges : Edges}
    (hkeys : (s.keys.filter fun pair => s.lookup pair = some false) = edges)
    (hsorted : edges.Pairwise fun a b => pairLe a b = true) : eagerPairs s = edges := by
  rw [eagerPairs, hkeys]
  exact List.mergeSort_of_pairwise hsorted

def cyclesOf (component : List String) (edges : Edges) : ImportCycles := ⟨[component], edges⟩

def chordComponent : List String := ["c.py", "d.py", "b.py", "a.py"]

def bottleneckComponent : List String := ["r.py", "q.py", "p.py", "x.py", "hub.py"]

/-- A run over an example, up to its only component. -/
def RunsTo (directives : List ((String × String) × Bool)) (edges : Edges) (component files : List String) : Prop :=
  (((pairSet directives).keys.filter fun pair => (pairSet directives).lookup pair = some false) = edges ∧
    edges.Pairwise fun a b => pairLe a b = true) ∧
  (tarjanScc 50 edges = .ok [component] ∧ edges.filter (sameComponent [component]) = edges) ∧
  component.insertionSort (· ≤ ·) = files

instance (directives : List ((String × String) × Bool)) (edges : Edges) (component files : List String) :
    Decidable (RunsTo directives edges component files) := inferInstanceAs (Decidable (_ ∧ _))

theorem chord_run : RunsTo chordDirectives chordEdges chordComponent chordFiles ∧
    [("a.py", "c.py"), ("c.py", "b.py"), ("b.py", "d.py"), ("d.py", "a.py")] ⊆
      Removal.without ("a.py", "b.py") (internalEdges chordEdges chordFiles) ∧
    cycleGuidance (cyclesOf chordComponent chordEdges) (fun _ => 0) (cycleFiles chordFiles "a.py") "a.py" =
      some (.breakPoint ("a.py", "b.py") 0) := by
  decide

theorem eagerPairs_chord : eagerPairs (pairSet chordDirectives) = chordEdges :=
  eagerPairs_of_sorted chord_run.1.1.1 chord_run.1.1.2

theorem load_of_run {directives : List ((String × String) × Bool)} {edges : Edges} {component files : List String}
    (h : RunsTo directives edges component files) : ImportCycles.load 50 edges = .ok (cyclesOf component edges) := by
  obtain ⟨-, ⟨hrun, hedges⟩, -⟩ := h
  simp only [ImportCycles.load, hrun, hedges, cyclesOf]

/-- The entry of a file when there is one component. -/
theorem cycleEntryForFile_one {component sorted : List String} {edges : Edges} {file : String}
    (hlen : 2 ≤ component.length) (hfile : file ∈ component)
    (hsorted : component.insertionSort (· ≤ ·) = sorted) :
    cycleEntryForFile (cyclesOf component edges) file = some sorted := by
  have hlarge : (decide (2 ≤ component.length) && component.contains file) = true := by
    simp [hlen, hfile]
  have hfind : (cyclesOf component edges).components.find?
      (fun c => decide (2 ≤ c.length) && c.contains file) = some component := List.find?_cons_of_pos hlarge
  rw [cycleEntryForFile, hfind, Option.map_some, ← hsorted]
  exact congrArg some (List.mergeSort_eq_insertionSort (· ≤ ·) component)

theorem guidance_hub {edges : Edges} {size : Nat} {weight : String × String → ℚ} (hne : edges.isEmpty = false)
    (hring : ringLike edges size = false) : guidance edges size weight = some (.hubDominated (hubs edges)) := by
  rw [guidance, hne, hring]
  rfl

theorem chord_ring_connected :
    Removal.StronglyConnected chordFiles (Removal.without ("a.py", "b.py") (internalEdges chordEdges chordFiles)) := by
  set edges := Removal.without ("a.py", "b.py") (internalEdges chordEdges chordFiles) with hedges
  obtain ⟨hac, hcb, hbd, hda⟩ : Removal.Reaches edges "a.py" "c.py" ∧ Removal.Reaches edges "c.py" "b.py" ∧
      Removal.Reaches edges "b.py" "d.py" ∧ Removal.Reaches edges "d.py" "a.py" := by
    have hsub := chord_run.2.1
    refine ⟨.single (hsub ?_), .single (hsub ?_), .single (hsub ?_), .single (hsub ?_)⟩ <;> simp
  have hfrom : ∀ x ∈ chordFiles, Removal.Reaches edges "a.py" x := by
    intro x hx
    simp only [chordFiles, List.mem_cons, List.not_mem_nil, or_false] at hx
    rcases hx with rfl | rfl | rfl | rfl
    · exact .refl
    · exact hac.trans hcb
    · exact hac
    · exact hac.trans (hcb.trans hbd)
  have hto : ∀ x ∈ chordFiles, Removal.Reaches edges x "a.py" := by
    intro x hx
    simp only [chordFiles, List.mem_cons, List.not_mem_nil, or_false] at hx
    rcases hx with rfl | rfl | rfl | rfl
    · exact .refl
    · exact hbd.trans hda
    · exact hcb.trans (hbd.trans hda)
    · exact hda
  exact fun x hx y hy => (hto x hx).trans (hfrom y hy)

/-- Along this ranking everything but the edge out of the hub goes up. -/
def bottleneckRank (file : String) : Nat := if file = "x.py" then 0 else if file = "hub.py" then 2 else 1

def bottleneckWithin : Edges :=
  (cyclesOf bottleneckComponent bottleneckEdges).edgesWithin (cycleFiles bottleneckFiles "hub.py" ++ ["hub.py"])

theorem bottleneck_run : RunsTo bottleneckDirectives bottleneckEdges bottleneckComponent bottleneckFiles ∧
    (bottleneckWithin.isEmpty = false ∧
      ringLike bottleneckWithin (cycleFiles bottleneckFiles "hub.py" ++ ["hub.py"]).length = false) ∧
    ("hub.py", "x.py") ∈ internalEdges bottleneckEdges bottleneckFiles ∧
    ∀ d ∈ Removal.without ("hub.py", "x.py") (internalEdges bottleneckEdges bottleneckFiles),
      bottleneckRank d.1 < bottleneckRank d.2 := by
  decide +kernel

theorem eagerPairs_bottleneck : eagerPairs (pairSet bottleneckDirectives) = bottleneckEdges :=
  eagerPairs_of_sorted bottleneck_run.1.1.1 bottleneck_run.1.1.2

/-- The chord of a ring is named as its break point; a cycle that one edge breaks is called unbreakable. -/
theorem chord_named_and_bottleneck_missed :
    (∃ cycles, ImportCycles.load 50 (eagerPairs (pairSet chordDirectives)) = .ok cycles ∧
      cycleEntryForFile cycles "a.py" = some chordFiles ∧
      cycleGuidance cycles (fun _ => 0) (cycleFiles chordFiles "a.py") "a.py" =
        some (.breakPoint ("a.py", "b.py") 0) ∧
      Removal.StronglyConnected chordFiles
        (Removal.without ("a.py", "b.py") (internalEdges (eagerPairs (pairSet chordDirectives)) chordFiles))) ∧
    ∃ cycles, ImportCycles.load 50 (eagerPairs (pairSet bottleneckDirectives)) = .ok cycles ∧
      cycleEntryForFile cycles "hub.py" = some bottleneckFiles ∧
      (∃ hubs, cycleGuidance cycles (fun _ => 0) (cycleFiles bottleneckFiles "hub.py") "hub.py" =
        some (.hubDominated hubs)) ∧
      ("hub.py", "x.py") ∈ internalEdges (eagerPairs (pairSet bottleneckDirectives)) bottleneckFiles ∧
      ¬Removal.HasCycle (Removal.without ("hub.py", "x.py")
        (internalEdges (eagerPairs (pairSet bottleneckDirectives)) bottleneckFiles)) := by
  rw [eagerPairs_chord, eagerPairs_bottleneck]
  refine ⟨⟨_, load_of_run chord_run.1, ?_, chord_run.2.2, chord_ring_connected⟩, _, load_of_run bottleneck_run.1, ?_,
    ⟨_, guidance_hub bottleneck_run.2.1.1 bottleneck_run.2.1.2⟩, bottleneck_run.2.2.1, ?_⟩
  · exact cycleEntryForFile_one (by decide) (by decide) chord_run.1.2.2
  · exact cycleEntryForFile_one (by decide) (by decide) bottleneck_run.1.2.2
  · exact Removal.not_hasCycle_of_rank bottleneckRank bottleneck_run.2.2.2

/-- The ring with its chord, where nothing co-changes. -/
theorem cycleGuidance_true_iff_for_a_chord : ∃ cycles members,
    ImportCycles.load 50 (eagerPairs (pairSet chordDirectives)) = .ok cycles ∧
    cycleEntryForFile cycles "a.py" = some members ∧
    (GuidanceTrue members (internalEdges (eagerPairs (pairSet chordDirectives)) members)
        (cycleGuidance cycles (fun _ => 0) (cycleFiles members "a.py") "a.py") ↔
      Truthful members (internalEdges (eagerPairs (pairSet chordDirectives)) members) fun _ => 0) := by
  have hload := eagerPairs_chord ▸ load_of_run chord_run.1
  have hentry : cycleEntryForFile (cyclesOf chordComponent chordEdges) "a.py" = some chordFiles :=
    cycleEntryForFile_one (by decide) (by decide) chord_run.1.2.2
  exact ⟨_, chordFiles, hload, hentry, cycleGuidance_true_iff chordDirectives 50 hload hentry fun _ => 0⟩

end Example

end CycleGuidance
end Graph
end CodeSage
