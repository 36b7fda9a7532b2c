import CodeSage.Graph.ImpactShared
import Mathlib.Data.Set.Card
import Mathlib.Data.Set.Finite.Lattice
import Mathlib.Data.String.Basic

/-!
# CodeSage.Graph.ImpactCorrect

What an impact walk reports. An outcome that is not capped has exactly the dependents within the depth, with their
distances and the numbers of their distinct reasons, and is what the walk without a budget has; in every outcome an entry
is a dependent, at no less than its distance.

The walk goes `1..=req.depth as u32` levels, and from a reference it goes on to the file only for a target given as a file.
Its outcome is right if and only if nothing is lost that way (`Covered`), or the context was capped (`ContextCapped`).
-/

namespace CodeSage
namespace Graph
namespace Impact

open Lib

section Spec

variable {Symbol File Name Kind : Type} (E : Evidence Symbol File Name Kind) (req : ImpactRequest Symbol File)

/-- Exactly the dependents within the depth. -/
structure Exact [DecidableEq File] (isSource : File → Bool) (o : Outcome File Name Kind) : Prop where
  entries : ∀ f d, (∃ e ∈ o.entries, e.filePath = f ∧ e.distance = d) ↔
    Distance E req f d ∧ d ≤ req.depth ∧ (req.sourceOnly = true → isSource f = true)
  once : (o.entries.map (·.filePath)).Nodup
  counts : ∀ f n, o.edgeCounts.lookup f = some n ↔
    (∃ d, Distance E req f d ∧ d ≤ req.depth) ∧ n = (reasonsWithin E req f req.depth).ncard

/-- Only dependents, at no less than their distance. -/
def Sound (o : Outcome File Name Kind) : Prop := ∀ e ∈ o.entries, e.distance ≤ req.depth ∧
  (∃ k reason, e.distance = k + 1 ∧ Dependent E req true e.filePath k reason) ∧
  ∃ d, Distance E req e.filePath d ∧ d ≤ e.distance

/-- Every reason within the depth is one of a step that the walk takes, as is the nearest step of every file, and the
number of the reasons is a `u32`. -/
structure Covered : Prop where
  reasons : ∀ f k x, k < req.depth → Dependent E req true f k x →
    ∃ j < depth32 req, Dependent E req req.fileForm f j x
  sooner : ∀ f k x, k < req.depth → Dependent E req true f k x →
    ∃ j ≤ k, j < depth32 req ∧ ∃ y, Dependent E req req.fileForm f j y
  counts : ∀ f, (reasonsWithin E req f req.depth).ncard < 2 ^ 32

/-- The context was capped before the walk, or is by a symbol that the walk looks up. -/
def ContextCapped (capped₀ : Bool) : Prop :=
  capped₀ = true ∨ ∃ j < depth32 req, ∃ x, AtStep E req req.fileForm j (.symbol x) ∧ E.contextCapped x = true

/-- What the walk is to report, under every frontier cap and every budget. -/
def Reports [DecidableEq Symbol] [LinearOrder File] [DecidableEq Name] [DecidableEq Kind] (capped₀ : Bool) : Prop :=
  ∀ isSource maxFrontier budget, ∃ o capped,
    impactAnalysisWalkShared E.lookup req maxFrontier isSource budget capped₀ = some (o, capped) ∧ Sound E req o ∧
    (o.capped = false → Exact E req isSource o ∧
      ∃ capped', impactAnalysisWalkShared E.lookup req maxFrontier isSource none capped₀ = some (o, capped'))

variable {E req}

theorem AtStep.through {k : Nat} {n : Node Symbol File} (h : AtStep E req req.fileForm k n) : AtStep E req true k n := by
  induction k generalizing n with
  | zero => exact h
  | succ k ih =>
    obtain ⟨m, hm, x, r, hedge, hleads⟩ := h
    refine ⟨m, ih hm, x, r, hedge, ?_⟩
    cases n with
    | symbol y => exact hleads
    | file f => exact ⟨hleads.1, .inl rfl⟩

theorem Dependent.through {f : File} {k : Nat} {x : Reason Name Kind} (h : Dependent E req req.fileForm f k x) :
    Dependent E req true f k x := by
  obtain ⟨n, r, hn, hedge, hf⟩ := h
  exact ⟨n, r, hn.through, hedge, hf⟩

theorem Dependent.distance {f : File} {k : Nat} {x : Reason Name Kind} (h : Dependent E req true f k x) :
    ∃ d, Distance E req f d ∧ d ≤ k + 1 := by
  classical
  have hex : ∃ k y, Dependent E req true f k y := ⟨k, x, h⟩
  obtain ⟨y, hy⟩ := Nat.find_spec hex
  exact ⟨Nat.find hex + 1, ⟨⟨_, y, rfl, hy⟩, fun j z hz => Nat.succ_le_succ (Nat.find_min' hex ⟨z, hz⟩)⟩,
    Nat.succ_le_succ (Nat.find_min' hex ⟨x, h⟩)⟩

theorem depth32_le : depth32 req ≤ req.depth := Nat.mod_le _ _

/-- Without a file to start from, only symbols have edges. -/
theorem Edge.symbol (hfiles : req.target.files = []) {n : Node Symbol File} {x : Reason Name Kind}
    {r : Reference File Name Kind} (h : Edge E req n x r) : ∃ y, n = .symbol y := by
  cases n with
  | symbol y => exact ⟨y, rfl⟩
  | file f =>
    have himports : r ∈ walkImports E.lookup req := h.1
    rw [walkImports] at himports
    split at himports
    · cases himports
    · rename_i htarget
      rw [htarget] at hfiles
      cases hfiles

theorem AtStep.followed (hfiles : req.target.files = []) {y : Symbol} {k : Nat}
    (h : AtStep E req true k (.symbol y)) : AtStep E req req.fileForm k (.symbol y) := by
  induction k generalizing y with
  | zero => exact h
  | succ k ih =>
    obtain ⟨m, hm, x, r, hedge, hleads⟩ := h
    obtain ⟨z, rfl⟩ := hedge.symbol hfiles
    exact ⟨_, ih hm, x, r, hedge, hleads⟩

/-- The usual requests: a depth that is a `u32`, and a target given as what it is. -/
theorem Covered.of_small (hdepth : req.depth < 2 ^ 32)
    (hform : req.fileForm = true ∨ req.target.files = [] ∨ req.depth ≤ 1)
    (hcounts : ∀ f, (reasonsWithin E req f req.depth).ncard < 2 ^ 32) : Covered E req := by
  have hsame : depth32 req = req.depth := Nat.mod_eq_of_lt hdepth
  have hfollowed : ∀ f k x, k < req.depth → Dependent E req true f k x → Dependent E req req.fileForm f k x := by
    intro f k x hk h
    rcases hform with hform | hsymbols | hone
    · rwa [hform]
    · obtain ⟨n, r, hn, hedge, hf⟩ := h
      obtain ⟨y, rfl⟩ := hedge.symbol hsymbols
      exact ⟨_, r, hn.followed hsymbols, hedge, hf⟩
    · obtain rfl : k = 0 := by omega
      exact h
  exact ⟨fun f k x hk h => ⟨k, hsame ▸ hk, hfollowed f k x hk h⟩,
    fun f k x hk h => ⟨k, Nat.le_refl k, hsame ▸ hk, x, hfollowed f k x hk h⟩, hcounts⟩

end Spec

section Outcome

variable {Symbol File Name Kind κ : Type} [LinearOrder File] {L : Lookup Symbol File Name Kind κ}
  {req : ImpactRequest Symbol File} {isSource : File → Bool} {s : Run Symbol File Name Kind κ}
  {P : File → Nat → Reason Name Kind → Prop}

theorem mem_entries {e : Entry File Name Kind} : e ∈ (outcomeOf L req isSource s).entries ↔
    (∃ row, s.found.lookup e.filePath = some row ∧ e.distance = row.distance ∧ e.reasons = row.reasons) ∧
      (req.sourceOnly = true → isSource e.filePath = true) := by
  have hsource : (!req.sourceOnly || isSource e.filePath) = true ↔ (req.sourceOnly = true → isSource e.filePath = true) := by
    cases req.sourceOnly <;> simp
  rw [outcomeOf, List.mem_insertionSort, List.mem_filter, hsource]
  refine and_congr_left fun _ => ?_
  rw [List.mem_map]
  constructor
  · rintro ⟨row, hrow, rfl⟩
    exact ⟨row.2, Table.mem_rows.mp hrow, rfl, rfl⟩
  · rintro ⟨row, hrow, hdistance, hreasons⟩
    exact ⟨(e.filePath, row), Table.mem_rows.mpr hrow, by rw [← hdistance, ← hreasons]⟩

theorem entries_once : ((outcomeOf L req isSource s).entries.map (·.filePath)).Nodup := by
  have hperm := ((List.perm_insertionSort (fun a b => entryLe a b = true) ((s.found.rows.map fun row =>
    (⟨row.1, row.2.distance, row.2.reasons⟩ : Entry File Name Kind)).filter
    fun entry => !req.sourceOnly || isSource entry.filePath)).map (·.filePath))
  refine hperm.nodup_iff.mpr ((List.Nodup.sublist ?_ s.found.nodup_rows))
  have hsub := (List.filter_sublist (p := fun entry => !req.sourceOnly || isSource entry.filePath)
    (l := s.found.rows.map fun row => (⟨row.1, row.2.distance, row.2.reasons⟩ : Entry File Name Kind))).map (·.filePath)
  rw [List.map_map] at hsub
  exact hsub

theorem edgeCounts_lookup {f : File} {n : Nat} : (outcomeOf L req isSource s).edgeCounts.lookup f = some n ↔
    ∃ row, s.found.lookup f = some row ∧ n = row.edges.length % 2 ^ 32 := by
  have hkeys : ((s.found.rows.map fun row => (row.1, row.2.edges.length % 2 ^ 32)).map Prod.fst).Nodup := by
    rw [List.map_map]
    exact s.found.nodup_rows
  rw [outcomeOf, Table.lookup_collect hkeys, List.mem_map]
  constructor
  · rintro ⟨row, hrow, heq⟩
    cases heq
    exact ⟨row.2, Table.mem_rows.mp hrow, rfl⟩
  · rintro ⟨row, hrow, rfl⟩
    exact ⟨(f, row), Table.mem_rows.mpr hrow, rfl⟩

/-- A file has a row when a step has given it a reason. -/
theorem TableIs.exists_row (h : TableIs s.found P) {f : File} {d : Nat} {x : Reason Name Kind} (hP : P f d x) :
    ∃ row, s.found.lookup f = some row ∧ FoundIs row (P f) := by
  cases hrow : s.found.lookup f with
  | none => exact absurd hP (h.missing f hrow d x)
  | some row => exact ⟨row, rfl, h.present f row hrow⟩

theorem FoundIs.length [DecidableEq Name] [DecidableEq Kind] {row : Found Name Kind} {Q : Nat → Reason Name Kind → Prop}
    (h : FoundIs row Q) : row.edges.length = {x | ∃ d, Q d x}.ncard := by
  have hset : {x | ∃ d, Q d x} = (row.edges.toFinset : Set (Reason Name Kind)) := by
    ext x
    rw [List.coe_toFinset]
    exact (h.edges x).symm
  rw [hset, Set.ncard_coe_finset, List.toFinset_card_of_nodup h.distinct]

end Outcome

section Finite

variable {Symbol File Name Kind : Type} (E : Evidence Symbol File Name Kind) (req : ImpactRequest Symbol File)

theorem edges_finite (n : Node Symbol File) :
    {e : Reason Name Kind × Reference File Name Kind | Edge E req n e.1 e.2}.Finite := by
  cases n with
  | symbol x =>
    refine ((E.references x).finite_toSet.image fun r => ((⟨E.name x, r.kind, r.line⟩ : Reason Name Kind), r)).subset ?_
    rintro ⟨y, r⟩ ⟨hr, -, hy⟩
    exact ⟨r, hr, Prod.ext hy.symm rfl⟩
  | file f =>
    refine ((walkImports E.lookup req).finite_toSet.image fun r =>
      ((⟨r.toName, r.kind, r.line⟩ : Reason Name Kind), r)).subset ?_
    rintro ⟨y, r⟩ ⟨hr, -, -, hy⟩
    exact ⟨r, hr, Prod.ext hy.symm rfl⟩

theorem leadsTo_finite (through : Bool) (n : Node Symbol File) (r : Reference File Name Kind) :
    {m | LeadsTo E through n r m}.Finite := by
  have howner : {m : Node Symbol File | ∃ x, m = .symbol x ∧ E.owner r = some x}.Finite := by
    cases hr : E.owner r with
    | none => exact Set.Finite.subset Set.finite_empty fun _ ⟨_, _, h⟩ => nomatch h
    | some x =>
      refine (Set.finite_singleton (Node.symbol x)).subset ?_
      rintro m ⟨y, rfl, h⟩
      cases h
      exact rfl
  refine (howner.union (Set.finite_singleton (Node.file r.fromFile))).subset fun m hm => ?_
  cases m with
  | symbol x => exact .inl ⟨x, rfl, hm⟩
  | file f => exact .inr (congrArg Node.file hm.1)

theorem atStep_finite (through : Bool) (k : Nat) : {n | AtStep E req through k n}.Finite := by
  induction k with
  | zero =>
    refine ((req.target.seeds.finite_toSet.image Node.symbol).union
      (req.target.files.finite_toSet.image Node.file)).subset fun n hn => ?_
    cases n with
    | symbol x => exact .inl ⟨x, hn, rfl⟩
    | file f => exact .inr ⟨f, hn, rfl⟩
  | succ k ih =>
    refine (ih.biUnion fun n _ => (edges_finite E req n).biUnion fun e _ => leadsTo_finite E through n e.2).subset ?_
    rintro m ⟨n, hn, x, r, hedge, hleads⟩
    exact Set.mem_biUnion hn (Set.mem_biUnion (x := (x, r)) hedge hleads)

theorem reasonsWithin_finite (f : File) (depth : Nat) : (reasonsWithin E req f depth).Finite := by
  refine ((Set.finite_lt_nat depth).biUnion fun k _ => (atStep_finite E req true k).biUnion fun n _ =>
    (edges_finite E req n).image Prod.fst).subset ?_
  rintro x ⟨k, hk, n, r, hn, hedge, -⟩
  exact Set.mem_biUnion hk (Set.mem_biUnion hn ⟨(x, r), hedge, rfl⟩)

end Finite

section Start

variable {Symbol File Name Kind : Type} {E : Evidence Symbol File Name Kind} {req : ImpactRequest Symbol File}
  {capped₀ : Bool} {budget : Option Budget}

theorem start_levelInv [DecidableEq File] : LevelInv E req capped₀ 0 (start req budget capped₀) req.target.seeds req.target.files
    fun _ _ _ => False where
  table := ⟨fun _ _ h => (nomatch h), fun _ _ _ _ h => h⟩
  sound := fun _ _ _ h => h.elim
  reached := fun _ h => h
  context := .inl

theorem start_covers : Covers E req capped₀ 0 (start req budget capped₀) req.target.seeds req.target.files
    fun _ _ _ => False where
  start := fun _ h => .inr h
  closed := fun _ n _ h => by cases n <;> cases h
  visited := fun n h => by cases n <;> cases h
  reach := fun _ h => (nomatch h)
  context := id

/-- Without anything to start from, nothing is reached. -/
theorem AtStep.not_of_empty (hempty : (req.target.seeds.isEmpty && req.target.files.isEmpty) = true) {through : Bool} :
    ∀ {k : Nat} {n : Node Symbol File}, ¬AtStep E req through k n := by
  rw [Bool.and_eq_true, List.isEmpty_iff, List.isEmpty_iff] at hempty
  intro k
  induction k with
  | zero =>
    intro n hn
    cases n with
    | symbol x => exact absurd (hempty.1 ▸ hn : x ∈ []) List.not_mem_nil
    | file f => exact absurd (hempty.2 ▸ hn : f ∈ []) List.not_mem_nil
  | succ k ih => exact fun ⟨m, hm, _⟩ => ih hm

theorem lookup_coherent : Coherent E.lookup E req (fun _ => True) (· = ·) where
  name := rfl
  filePath := rfl
  fileImports := rfl
  owner := rfl
  references := fun c b x h => ⟨rfl, by rw [← h]; rfl⟩
  targetsFile := fun _ _ _ _ h => ⟨rfl, h⟩
  cached := fun _ _ _ _ _ _ h => (nomatch h)
  remembered := fun _ _ _ _ h => h

theorem Budget.sane_of_open {b : Budget} (h : ¬b.overDeadline.1 = true) : b.overDeadline.2.Sane := by
  unfold Budget.overDeadline at h ⊢
  split
  · rename_i hhit
    rw [if_pos hhit] at h
    exact absurd rfl h
  split
  · exact fun _ => rfl
  · rename_i hopen _
    exact fun hhit => absurd hhit hopen

end Start

section Reports

variable {Symbol File Name Kind : Type} [LinearOrder File] {E : Evidence Symbol File Name Kind}
  {req : ImpactRequest Symbol File} {capped₀ : Bool} {isSource : File → Bool} {s : Run Symbol File Name Kind Bool}
  {P : File → Nat → Reason Name Kind → Prop}

theorem LevelInv.sound_outcome (h : LevelInv E req capped₀ (depth32 req) s [] [] P) :
    Sound E req (outcomeOf E.lookup req isSource s) := by
  intro e he
  obtain ⟨⟨row, hrow, hdistance, -⟩, -⟩ := mem_entries.mp he
  obtain ⟨x, hx⟩ := (h.table.present _ row hrow).reached
  obtain ⟨j, hj, hd, hdep⟩ := h.sound _ _ x hx
  rw [hdistance, hd]
  exact ⟨Nat.succ_le_of_lt (hj.trans_le depth32_le), ⟨j, x, rfl, hdep.through⟩, hdep.through.distance⟩

omit [LinearOrder File] in
/-- Once the walk has gone through all that it would, each reason it follows has been found as soon. -/
theorem Finished.found (h : Finished E req capped₀ s P) {f : File} {j : Nat} {x : Reason Name Kind} (hj : j < depth32 req)
    (hdep : Dependent E req req.fileForm f j x) : ∃ i ≤ j, P f (i + 1) x := by
  obtain ⟨n, r, hn, hedge, rfl⟩ := hdep
  exact (h.done j hj n hn).edges x r hedge

/-- The nearest reason found is at the distance. -/
theorem distance_iff (hinv : LevelInv E req capped₀ (depth32 req) s [] [] P) (hfinished : Finished E req capped₀ s P)
    (hcovered : Covered E req) {f : File} {d : Nat} :
    (∃ x, P f d x) ∧ (∀ d' x, P f d' x → d ≤ d') ↔ Distance E req f d ∧ d ≤ req.depth := by
  constructor
  · rintro ⟨⟨x, hx⟩, hleast⟩
    obtain ⟨j, hj, rfl, hdep⟩ := hinv.sound f d x hx
    have hdepth : j + 1 ≤ req.depth := Nat.succ_le_of_lt (hj.trans_le depth32_le)
    refine ⟨⟨⟨j, x, rfl, hdep.through⟩, fun k y hy => ?_⟩, hdepth⟩
    by_cases hk : k < req.depth
    · obtain ⟨m, hmk, hm, z, hz⟩ := hcovered.sooner f k y hk hy
      obtain ⟨i, hi, hP⟩ := hfinished.found hm hz
      exact (hleast _ z hP).trans (Nat.succ_le_succ (hi.trans hmk))
    · omega
  · rintro ⟨hd, hdepth⟩
    obtain ⟨k, y, rfl, hy⟩ := hd.reaches
    have hleast : ∀ d' x, P f d' x → k + 1 ≤ d' := fun d' x hx => by
      obtain ⟨j, -, rfl, hdep⟩ := hinv.sound f d' x hx
      exact hd.least j x hdep.through
    obtain ⟨m, hmk, hm, z, hz⟩ := hcovered.sooner f k y (Nat.lt_of_succ_le hdepth) hy
    obtain ⟨i, hi, hP⟩ := hfinished.found hm hz
    obtain rfl : i = k := by
      have := hleast _ z hP
      omega
    exact ⟨⟨z, hP⟩, hleast⟩

theorem reasons_found (hinv : LevelInv E req capped₀ (depth32 req) s [] [] P) (f : File) :
    {x | ∃ d, P f d x} ⊆ reasonsWithin E req f req.depth := by
  rintro x ⟨d, hx⟩
  obtain ⟨j, hj, -, hdep⟩ := hinv.sound f d x hx
  exact ⟨j, hj.trans_le depth32_le, hdep.through⟩

variable [DecidableEq Name] [DecidableEq Kind]

/-- What a finished walk reports, when nothing is lost to it. -/
theorem Finished.exact (hfinished : Finished E req capped₀ s P)
    (hinv : LevelInv E req capped₀ (depth32 req) s [] [] P) (hcovered : Covered E req) :
    Exact E req isSource (outcomeOf E.lookup req isSource s) where
  entries := fun f d => by
    rw [← and_assoc, ← distance_iff hinv hfinished hcovered]
    constructor
    · rintro ⟨e, he, rfl, rfl⟩
      obtain ⟨⟨row, hrow, hdistance, -⟩, hsource⟩ := mem_entries.mp he
      have hfound := hinv.table.present _ row hrow
      rw [hdistance]
      exact ⟨⟨hfound.reached, hfound.least⟩, hsource⟩
    · rintro ⟨⟨⟨x, hx⟩, hleast⟩, hsource⟩
      obtain ⟨row, hrow, hfound⟩ := hinv.table.exists_row hx
      obtain ⟨y, hy⟩ := hfound.reached
      have hd : row.distance = d := Nat.le_antisymm (hfound.least d x hx) (hleast _ y hy)
      exact ⟨⟨f, d, row.reasons⟩, mem_entries.mpr ⟨⟨row, hrow, hd.symm, rfl⟩, hsource⟩, rfl, rfl⟩
  once := entries_once
  counts := fun f n => by
    have hset : {x | ∃ d, P f d x} = reasonsWithin E req f req.depth := by
      refine Set.Subset.antisymm (reasons_found hinv f) ?_
      rintro x ⟨k, hk, hdep⟩
      obtain ⟨j, hj, hdep'⟩ := hcovered.reasons f k x hk hdep
      obtain ⟨i, -, hP⟩ := hfinished.found hj hdep'
      exact ⟨i + 1, hP⟩
    have hcount : ∀ row, FoundIs row (P f) → row.edges.length % 2 ^ 32 = (reasonsWithin E req f req.depth).ncard :=
      fun row hfound => by rw [hfound.length, hset, Nat.mod_eq_of_lt (hcovered.counts f)]
    rw [edgeCounts_lookup]
    constructor
    · rintro ⟨row, hrow, rfl⟩
      have hfound := hinv.table.present f row hrow
      exact ⟨⟨row.distance, (distance_iff hinv hfinished hcovered).mp ⟨hfound.reached, hfound.least⟩⟩, hcount row hfound⟩
    · rintro ⟨⟨d, hd⟩, rfl⟩
      obtain ⟨⟨x, hx⟩, -⟩ := (distance_iff hinv hfinished hcovered).mpr hd
      obtain ⟨row, hrow, hfound⟩ := hinv.table.exists_row hx
      exact ⟨row, hrow, (hcount row hfound).symm⟩

/-- An uncapped walk that reports exactly the dependents has lost none of them. -/
theorem covered_of_exact (hinv : LevelInv E req capped₀ (depth32 req) s [] [] P)
    (hexact : Exact E req (fun _ => true) (outcomeOf E.lookup req (fun _ => true) s)) : Covered E req := by
  have hrow : ∀ f k x, k < req.depth → Dependent E req true f k x →
      ∃ row, s.found.lookup f = some row ∧ FoundIs row (P f) ∧ row.distance ≤ k + 1 := by
    intro f k x hk h
    obtain ⟨d, hd, hdk⟩ := h.distance
    obtain ⟨e, he, rfl, rfl⟩ := (hexact.entries f d).mpr ⟨hd, hdk.trans hk, fun _ => rfl⟩
    obtain ⟨⟨row, hrow, hdistance, -⟩, -⟩ := mem_entries.mp he
    exact ⟨row, hrow, hinv.table.present _ row hrow, hdistance ▸ hdk⟩
  have hcount : ∀ f k x, k < req.depth → Dependent E req true f k x → ∃ row, FoundIs row (P f) ∧
      (reasonsWithin E req f req.depth).ncard = {x | ∃ d, P f d x}.ncard % 2 ^ 32 := by
    intro f k x hk h
    obtain ⟨row, hrow, hfound, -⟩ := hrow f k x hk h
    refine ⟨row, hfound, ?_⟩
    rw [← hfound.length]
    exact (((hexact.counts f _).mp (edgeCounts_lookup.mpr ⟨row, hrow, rfl⟩)).2).symm
  have hsmaller : ∀ f, {x | ∃ d, P f d x}.ncard ≤ (reasonsWithin E req f req.depth).ncard := fun f =>
    Set.ncard_le_ncard (reasons_found hinv f) (reasonsWithin_finite E req f req.depth)
  refine ⟨fun f k x hk h => ?_, fun f k x hk h => ?_, fun f => ?_⟩
  · obtain ⟨row, hfound, hn⟩ := hcount f k x hk h
    have hle : (reasonsWithin E req f req.depth).ncard ≤ {x | ∃ d, P f d x}.ncard := by
      rw [hn]
      exact Nat.mod_le _ _
    have hset := Set.eq_of_subset_of_ncard_le (reasons_found hinv f) hle (reasonsWithin_finite E req f req.depth)
    have hx : x ∈ reasonsWithin E req f req.depth := ⟨k, hk, h⟩
    rw [← hset] at hx
    obtain ⟨d, hP⟩ := hx
    obtain ⟨j, hj, -, hdep⟩ := hinv.sound f d x hP
    exact ⟨j, hj, hdep⟩
  · obtain ⟨row, -, hfound, hdistance⟩ := hrow f k x hk h
    obtain ⟨y, hy⟩ := hfound.reached
    obtain ⟨j, hj, hd, hdep⟩ := hinv.sound f _ y hy
    exact ⟨j, by omega, hj, y, hdep⟩
  · by_cases hempty : reasonsWithin E req f req.depth = ∅
    · rw [hempty, Set.ncard_empty]
      exact Nat.two_pow_pos 32
    · obtain ⟨x, k, hk, h⟩ := Set.nonempty_iff_ne_empty.mpr hempty
      obtain ⟨-, -, hn⟩ := hcount f k x hk h
      rw [hn]
      exact Nat.mod_lt _ (Nat.two_pow_pos 32)

variable [DecidableEq Symbol] {maxFrontier : Nat}

/-- The walk from the target: it ends, with dependents only, and without a budget and uncut it has found them all. -/
theorem walk_run (budget : Option Budget) : ∃ s P, walkLevels E.lookup req maxFrontier (depth32 req) 1 (start req budget capped₀)
    req.target.seeds req.target.files = some s ∧ LevelInv E req capped₀ (depth32 req) s [] [] P ∧
    (budget = none → s.frontierCapped = false → Finished E req capped₀ s P) := by
  have hstart : LevelInv E req capped₀ 0 (start req budget capped₀) req.target.seeds req.target.files fun _ _ _ => False :=
    start_levelInv
  obtain ⟨s, P, hrun, hinv, -, hfinished⟩ := walkLevels_run hstart (Nat.zero_add _)
  exact ⟨s, P, hrun, hinv, fun hnone => hfinished hnone start_covers⟩

/-- With a frontier cap that is large enough nothing is cut. -/
theorem walkLevels_uncut (E : Evidence Symbol File Name Kind) (req : ImpactRequest Symbol File) :
    ∀ {left depth : Nat} {s : Run Symbol File Name Kind Bool} {frontier : List Symbol}
    {files : List File}, s.budget = none → s.frontierCapped = false → ∃ cap, ∀ maxFrontier ≥ cap, ∀ s',
      walkLevels E.lookup req maxFrontier left depth s frontier files = some s' → s'.frontierCapped = false := by
  intro left
  induction left with
  | zero =>
    refine fun _ huncut => ⟨0, fun _ _ s' h => ?_⟩
    cases h
    exact huncut
  | succ left ih =>
    intro depth s frontier files hnone huncut
    obtain ⟨s₁, hs₁, hdone⟩ : ∃ s', _ ∧ LevelDone E req depth s frontier files s' := level_done
    have hfree := hdone.free hnone
    have huncut₁ : s₁.frontierCapped = false := hdone.frontierCapped.trans huncut
    obtain ⟨cap, hcap⟩ := @ih (depth + 1) s₁ (nextFrontier E.lookup s₁.pendingCallers) (nextFileFrontier s₁)
      hfree.budget huncut₁
    refine ⟨max cap (max (nextFrontier E.lookup s₁.pendingCallers).length (nextFileFrontier s₁).length),
      fun maxFrontier hmax s' h => ?_⟩
    have hlevel : walkLevel E.lookup req maxFrontier depth s frontier files = some (endLevel E.lookup maxFrontier s₁) := by
      have hopen : walkLevel E.lookup req maxFrontier depth s frontier files = (followFiles E.lookup req depth files
          (followLevel E.lookup req depth (loadLevel E.lookup s.cleared frontier).1
            (loadLevel E.lookup s.cleared frontier).2)).map (endLevel E.lookup maxFrontier) := rfl
      rw [hopen, hs₁, Option.map_some]
    have hcut : cutFrontiers E.lookup maxFrontier s₁ =
        (s₁, nextFrontier E.lookup s₁.pendingCallers, nextFileFrontier s₁) := by
      have hsymbols : ¬maxFrontier < (nextFrontier E.lookup s₁.pendingCallers).length := by omega
      have hfiles : ¬maxFrontier < (nextFileFrontier s₁).length := by omega
      rw [cutFrontiers, List.take_of_length_le (Nat.le_of_not_lt hsymbols), List.take_of_length_le (Nat.le_of_not_lt hfiles),
        decide_eq_false hsymbols, decide_eq_false hfiles, Bool.or_false, Bool.or_false]
    rw [walkLevels, hlevel, endLevel_eq hfree.budget hfree.budgetSpent, hcut] at h
    by_cases hempty : (s₁.pendingCallers.isEmpty && s₁.nextFiles.isEmpty) = true
    · rw [if_pos hempty] at h
      cases h
      exact huncut₁
    rw [if_neg hempty] at h
    by_cases hnothing : ((nextFrontier E.lookup s₁.pendingCallers).isEmpty && (nextFileFrontier s₁).isEmpty) = true
    · rw [if_pos hnothing] at h
      cases h
      exact huncut₁
    · rw [if_neg hnothing] at h
      exact hcap maxFrontier (by omega) s' h

/-- Under a budget an uncapped outcome is the one without. -/
theorem walkFrom_unbudgeted {b : Budget} (hb : b.Sane) {o : Outcome File Name Kind} {c : Bool}
    (h : walkFrom E.lookup req maxFrontier isSource (some b) capped₀ = some (o, c)) (huncapped : o.capped = false) :
    ∃ c', walkFrom E.lookup req maxFrontier isSource none capped₀ = some (o, c') := by
  rw [walkFrom] at h ⊢
  split at h
  · rename_i hempty
    cases h
    exact ⟨capped₀, if_pos hempty⟩
  · rename_i hstart
    rw [if_neg hstart]
    have hfine : Fine (· = ·) False (start req (some b) capped₀ : Run Symbol File Name Kind Bool) capped₀ :=
      ⟨rfl, False.elim, rfl, fun budget hbudget => by cases hbudget; exact hb⟩
    have hstarts : LevelInv E req capped₀ 0 (start req none capped₀) req.target.seeds req.target.files fun _ _ _ => False :=
      start_levelInv
    obtain ⟨s', hs', ho⟩ := Option.map_eq_some_iff.mp h
    cases ho
    rcases walkLevels_agree lookup_coherent (fun _ _ _ _ => trivial) hstarts (Nat.zero_add _) hfine with ⟨s₁, b₁, hs₁, ht₁, hok⟩ | ⟨-, hcapped⟩
    · obtain rfl : s' = s₁ := Option.some_inj.mp (hs'.symm.trans hs₁)
      have hcache : s'.cache = b₁ := hok.cache
      have hpure : walkLevels E.lookup req maxFrontier (depth32 req) 1 (start req none capped₀) req.target.seeds
          req.target.files = some (s'.bare b₁) := ht₁
      refine ⟨b₁, ?_⟩
      rw [hpure, Option.map_some, ← hcache]
      rfl
    · rw [outcomeOf, hcapped s' hs', Bool.true_or] at huncapped
      cases huncapped

theorem walkFrom_reports (maxFrontier : Nat) (isSource : File → Bool) (h : ContextCapped E req capped₀ ∨ Covered E req)
    (budget : Option Budget) : ∃ o c, walkFrom E.lookup req maxFrontier isSource budget capped₀ = some (o, c) ∧ Sound E req o ∧
      (budget = none → o.capped = false → Exact E req isSource o) := by
  rw [walkFrom]
  split
  · rename_i hempty
    have hnone : ∀ f d, ¬Distance E req f d := fun f d hd => by
      obtain ⟨k, x, -, n, r, hn, -⟩ := hd.reaches
      exact AtStep.not_of_empty hempty hn
    refine ⟨_, _, rfl, fun _ he => (nomatch he), fun _ _ => ⟨fun f d => ?_, List.nodup_nil, fun f n => ?_⟩⟩
    · exact ⟨fun ⟨_, he, _⟩ => (nomatch he), fun hd => absurd hd.1 (hnone f d)⟩
    · exact ⟨fun hrow => (nomatch hrow), fun hd => by
        obtain ⟨⟨d, hd, -⟩, -⟩ := hd
        exact absurd hd (hnone f d)⟩
  · obtain ⟨s, P, hrun, hinv, hfinished⟩ : ∃ s P, walkLevels E.lookup req maxFrontier _ _ _ _ _ = some s ∧
        LevelInv E req capped₀ _ s [] [] P ∧ _ := walk_run budget
    refine ⟨_, _, by rw [hrun, Option.map_some], hinv.sound_outcome, fun hnone huncapped => ?_⟩
    obtain ⟨huncut, hcache⟩ := Bool.or_eq_false_iff.mp huncapped
    have hdone := hfinished hnone huncut
    rcases h with hcapped | hcovered
    · exfalso
      have hset : s.cache = true := by
        rcases hcapped with hcapped | ⟨j, hj, x, hx, hcap⟩
        · exact hdone.context hcapped
        · exact (hdone.done j hj _ hx).context x rfl hcap
      have hcache : s.cache = false := hcache
      rw [hset] at hcache
      cases hcache
    · exact hdone.exact hinv hcovered

/-- The impact walk reports what it is to report exactly when nothing is lost to the cut of the depth and the form of
the target, or the context is capped. -/
theorem reports_iff : Reports E req capped₀ ↔ ContextCapped E req capped₀ ∨ Covered E req := by
  constructor
  · intro h
    by_cases hcontext : ContextCapped E req capped₀
    · exact .inl hcontext
    refine .inr ?_
    by_cases hempty : (req.target.seeds.isEmpty && req.target.files.isEmpty) = true
    · have hnone : ∀ through f k x, ¬Dependent E req through f k x := fun _ _ _ _ ⟨_, _, hn, _⟩ =>
        AtStep.not_of_empty hempty hn
      refine ⟨fun f k x _ hdep => absurd hdep (hnone _ f k x), fun f k x _ hdep => absurd hdep (hnone _ f k x), fun f => ?_⟩
      have hno : reasonsWithin E req f req.depth = ∅ :=
        Set.eq_empty_of_forall_notMem fun x ⟨k, _, hdep⟩ => hnone _ f k x hdep
      rw [hno, Set.ncard_empty]
      exact Nat.two_pow_pos 32
    obtain ⟨cap, hcap⟩ : ∃ cap, ∀ maxFrontier ≥ cap, ∀ s', walkLevels E.lookup req maxFrontier (depth32 req) 1
        (start req none capped₀) req.target.seeds req.target.files = some s' → s'.frontierCapped = false :=
      walkLevels_uncut E req rfl rfl
    obtain ⟨o, c, hrun, -, hall⟩ := h (fun _ => true) cap none
    obtain ⟨s, P, hlevels, hinv, -⟩ : ∃ s P, walkLevels E.lookup req cap _ _ _ _ _ = some s ∧
        LevelInv E req capped₀ _ s [] [] P ∧ _ := walk_run none
    rw [impactAnalysisWalkShared, walkFrom, if_neg hempty, hlevels, Option.map_some] at hrun
    cases hrun
    have hcache : s.cache = false := Bool.eq_false_iff.mpr fun hset => hcontext (hinv.context hset)
    have huncapped : (outcomeOf E.lookup req (fun _ => true) s).capped = false :=
      Bool.or_eq_false_iff.mpr ⟨hcap cap (Nat.le_refl cap) s hlevels, hcache⟩
    exact covered_of_exact hinv (hall huncapped).1
  · intro h isSource maxFrontier budget
    have hunlimited : ∀ o, (∃ c, walkFrom E.lookup req maxFrontier isSource none capped₀ = some (o, c)) →
        o.capped = false → Exact E req isSource o := by
      rintro o ⟨c, hc⟩ huncapped
      obtain ⟨o', c', hrun, -, hexact⟩ := walkFrom_reports maxFrontier isSource h none
      cases hrun.symm.trans hc
      exact hexact rfl huncapped
    have hnothing : Sound E req ⟨[], true, ∅, 0⟩ := fun _ he => (nomatch he)
    have hfree : impactAnalysisWalkShared E.lookup req maxFrontier isSource none capped₀ =
        walkFrom E.lookup req maxFrontier isSource none capped₀ := rfl
    rw [hfree]
    cases budget with
    | none =>
      obtain ⟨o, c, hrun, hsound, hexact⟩ := walkFrom_reports maxFrontier isSource h none
      exact ⟨o, c, hrun, hsound, fun huncapped => ⟨hexact rfl huncapped, c, hrun⟩⟩
    | some b =>
      rw [impactAnalysisWalkShared]
      split
      · exact ⟨_, _, rfl, hnothing, nofun⟩
      split
      · exact ⟨_, _, rfl, hnothing, nofun⟩
      · rename_i hopen hlook
        obtain ⟨o, c, hrun, hsound, -⟩ := walkFrom_reports maxFrontier isSource h (some b.overDeadline.2)
        refine ⟨o, c, hrun, hsound, fun huncapped => ?_⟩
        have hunbudgeted := walkFrom_unbudgeted (Budget.sane_of_open hlook) hrun huncapped
        exact ⟨hunlimited o hunbudgeted huncapped, hunbudgeted⟩

end Reports

section Deep

/-- One call, from `src/main.rs` to the target. -/
def oneCall : Evidence String String String String where
  name := id
  filePath := fun _ => "src/lib.rs"
  cost := fun _ => 1
  references := fun x => if x = "run" then [⟨"src/main.rs", some "main", "run", "call", 3⟩] else []
  fileImports := []
  targetsFile := fun _ _ => false
  owner := fun _ => some "main"
  contextCapped := fun _ => false

/-- A depth that is nothing as a `u32`. -/
def deepRequest : ImpactRequest String String where
  target := .symbols ["run"]
  fileForm := false
  depth := 2 ^ 32
  sourceOnly := false

theorem deep_request_finds_nothing :
    (impactAnalysisWalkShared oneCall.lookup deepRequest 1000 (fun _ => true) none false).map
      (fun result => (result.1.entries.map (·.filePath), result.1.capped)) = some ([], false) ∧
    Distance oneCall deepRequest "src/main.rs" 1 ∧ ¬Reports oneCall deepRequest false := by
  have hwalk : (impactAnalysisWalkShared oneCall.lookup deepRequest 1000 (fun _ => true) none false).map
      (fun result => (result.1.entries.map (·.filePath), result.1.capped)) = some ([], false) := by decide
  have hcall : Dependent oneCall deepRequest true "src/main.rs" 0 ⟨"run", "call", 3⟩ :=
    ⟨.symbol "run", ⟨"src/main.rs", some "main", "run", "call", 3⟩, List.mem_singleton.mpr rfl,
      ⟨by decide, by decide, rfl⟩, rfl⟩
  have hdistance : Distance oneCall deepRequest "src/main.rs" 1 :=
    ⟨⟨0, _, rfl, hcall⟩, fun k _ _ => Nat.le_add_left 1 k⟩
  refine ⟨hwalk, hdistance, fun h => ?_⟩
  obtain ⟨o, c, hrun, -, hall⟩ := h (fun _ => true) 1000 none
  rw [hrun, Option.map_some, Option.some_inj, Prod.mk.injEq, List.map_eq_nil_iff] at hwalk
  have hdepth : 1 ≤ deepRequest.depth := Nat.one_le_two_pow
  obtain ⟨e, he, -⟩ := ((hall hwalk.2).1.entries "src/main.rs" 1).mpr ⟨hdistance, hdepth, fun _ => rfl⟩
  rw [hwalk.1] at he
  cases he

end Deep

end Impact
end Graph
end CodeSage
