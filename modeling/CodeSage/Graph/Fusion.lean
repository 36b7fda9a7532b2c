import CodeSage.Lib.Ranking
import Mathlib.Algebra.Order.Field.Basic
import Mathlib.Algebra.Order.Field.Rat
import Mathlib.Data.List.AList
import Mathlib.Data.List.Dedup
import Mathlib.Data.Prod.Lex
import Mathlib.Data.String.Basic
import Mathlib.Order.Lex

/-!
# CodeSage.Graph.Fusion

Reciprocal rank fusion of the dense and the lexical ranking, `rrf_merge` (`crates/graph/src/search.rs`), with
a linearly ordered field for its floating-point numbers. The map of scores is read in some order, which is an
argument; `sqrt` is the square root of the platform.

The answer does not depend on that order exactly when no two regions that share file, first line and fused
score reach above the limit.
-/

namespace CodeSage
namespace Graph
namespace Fusion

open Lib OrderDual

abbrev Region := String × UInt32 × UInt32

section Model

variable {α : Type}

/-- `SearchScoreSignals` -/
structure Signals (α : Type) where
  denseRank : Option Nat := none
  denseScore : Option α := none
  bm25Rank : Option Nat := none
  bm25Score : Option α := none
  fusedScore : Option α := none

structure RawSearchRow (α : Type) where
  filePath : String
  language : String
  content : String
  startLine : UInt32
  endLine : UInt32
  distance : α
  retrieval : Signals α

def RawSearchRow.region (row : RawSearchRow α) : Region := (row.filePath, row.startLine, row.endLine)

abbrev Scores (α : Type) := AList fun _ : Region => α × RawSearchRow α

variable [Field α] [LinearOrder α]

def RRF_K : α := 60

def BM25_WEIGHT : α := 2

def MIN_FUSED_RESCALE_SPAN : α := 1 / 20

/-- `f64::EPSILON` -/
def EPSILON : α := 1 / 2 ^ 52

def l2ToScore (distance : α) : α := max (1 - distance * distance / 2) 0

/-- `clamp(0.0, 1.0)` -/
def clampUnit (x : α) : α := min (max x 0) 1

/-- `(sem_min, sem_max)` -/
def semanticSpan (semantic : List (RawSearchRow α)) : α × α :=
  let (lo, hi) :=
    match semantic.map fun r => l2ToScore r.distance with
    | [] => (0, 1)
    | s :: ss => (ss.foldl min s, ss.foldl max s)
  if hi - lo < MIN_FUSED_RESCALE_SPAN then (clampUnit (hi - 1 / 5), clampUnit hi) else (lo, hi)

/-- `scores.entry(key).and_modify(..).or_insert(..)` -/
def bump (scores : Scores α) (row : RawSearchRow α) (contrib : α) (modify : RawSearchRow α → RawSearchRow α) : Scores α :=
  match scores.lookup row.region with
  | some (s, existing) => scores.insert row.region (s + contrib, modify existing)
  | none => scores.insert row.region (contrib, row)

def addDense (scores : Scores α) (ranked : RawSearchRow α × Nat) : Scores α :=
  let (row, rank) := ranked
  bump scores { row with retrieval :=
      { row.retrieval with denseRank := some (rank + 1), denseScore := some (l2ToScore row.distance) } }
    (1 / (RRF_K + rank + 1)) id

def addBm25 (scores : Scores α) (ranked : RawSearchRow α × Nat) : Scores α :=
  let (row, rank) := ranked
  bump scores { row with retrieval :=
      { row.retrieval with bm25Rank := some (rank + 1), bm25Score := some row.distance } }
    (BM25_WEIGHT / (RRF_K + rank + 1)) fun existing => { existing with retrieval :=
      { existing.retrieval with bm25Rank := some (rank + 1), bm25Score := some row.distance } }

def fuse (semantic bm25 : List (RawSearchRow α)) : Scores α :=
  bm25.zipIdx.foldl addBm25 (semantic.zipIdx.foldl addDense ∅)

/-- The key of the sort: score down, then path, then first line. -/
def rankKey (score : α) (filePath : String) (startLine : UInt32) : αᵒᵈ ×ₗ (String ×ₗ ℕ) :=
  toLex (toDual score, toLex (filePath, startLine.toNat))

def before (a b : α × RawSearchRow α) : Bool :=
  decide (rankKey a.1 a.2.filePath a.2.startLine ≤ rankKey b.1 b.2.filePath b.2.startLine)

def rescale (sqrt : α → α) (span : α × α) (lo hi : α) (ranked : α × RawSearchRow α) : RawSearchRow α :=
  let (score, row) := ranked
  let rescaled := if EPSILON < hi - lo then span.1 + (score - lo) / (hi - lo) * (span.2 - span.1) else span.2
  { row with
    distance := sqrt (2 * (1 - clampUnit rescaled))
    retrieval := { row.retrieval with fusedScore := some score } }

/-- The values of the map sorted, cut and rescaled. -/
def finish (sqrt : α → α) (semantic : List (RawSearchRow α)) (limit : Nat) (values : List (α × RawSearchRow α)) :
    List (RawSearchRow α) :=
  let ranked := (values.mergeSort before).take limit
  let hi := (ranked.head?.map Prod.fst).getD 0
  let lo := (ranked.getLast?.map Prod.fst).getD 0
  ranked.map (rescale sqrt (semanticSpan semantic) lo hi)

/-- `rrf_merge` may return `rows`: the map of scores gives its values in some order. -/
def RrfMerge (sqrt : α → α) (semantic bm25 : List (RawSearchRow α)) (limit : Nat) (rows : List (RawSearchRow α)) : Prop :=
  ∃ values : List (α × RawSearchRow α), values.Perm ((fuse semantic bm25).entries.map Sigma.snd) ∧
    rows = finish sqrt semantic limit values

end Model

section Scores

variable {α : Type}

/-- The regions of the two lists, each once. -/
def inputRegions (semantic bm25 : List (RawSearchRow α)) : List Region :=
  ((semantic ++ bm25).map RawSearchRow.region).dedup

variable [Field α]

/-- What the ranks of a region in one list add up to, the first row having the rank `n`. -/
def rankSum (weight : α) (k : Region) : Nat → List (RawSearchRow α) → α
  | _, [] => 0
  | n, row :: rows => (if row.region = k then weight / (RRF_K + n + 1) else 0) + rankSum weight k (n + 1) rows

def fusedScore (semantic bm25 : List (RawSearchRow α)) (k : Region) : α :=
  rankSum 1 k 0 semantic + rankSum BM25_WEIGHT k 0 bm25

/-- The map holds the regions read, each with its score and a row of its own. -/
structure Sound (scores : Scores α) (score : Region → α) (keys : List Region) : Prop where
  mem : ∀ k, k ∈ scores ↔ k ∈ keys
  value : ∀ k s row, scores.lookup k = some (s, row) → row.region = k ∧ s = score k
  fresh : ∀ k, k ∉ keys → score k = 0

theorem Sound.bumped {scores : Scores α} {score : Region → α} {keys : List Region} (h : Sound scores score keys)
    (row : RawSearchRow α) (contrib : α) (modify : RawSearchRow α → RawSearchRow α)
    (hmodify : ∀ e, (modify e).region = e.region) :
    Sound (bump scores row contrib modify) (fun k => score k + if row.region = k then contrib else 0)
      (row.region :: keys) := by
  have hlookup : ∃ row', row'.region = row.region ∧
      Fusion.bump scores row contrib modify = scores.insert row.region (score row.region + contrib, row') := by
    rw [Fusion.bump]
    cases hl : scores.lookup row.region with
    | none =>
      have hnot : row.region ∉ keys := by
        rw [← h.mem]
        exact AList.lookup_eq_none.mp hl
      exact ⟨row, rfl, by rw [h.fresh _ hnot, zero_add]⟩
    | some e =>
      obtain ⟨hregion, hscore⟩ := h.value row.region e.1 e.2 hl
      exact ⟨modify e.2, (hmodify e.2).trans hregion, by rw [← hscore]⟩
  obtain ⟨row', hregion, heq⟩ := hlookup
  rw [heq]
  refine ⟨fun k => ?_, fun k s r hk => ?_, fun k hk => ?_⟩
  · rw [AList.mem_insert, List.mem_cons, h.mem]
  · by_cases hkey : k = row.region
    · subst hkey
      rw [AList.lookup_insert] at hk
      cases hk
      exact ⟨hregion, by rw [if_pos rfl]⟩
    · rw [AList.lookup_insert_ne hkey] at hk
      obtain ⟨hr, hs⟩ := h.value k s r hk
      exact ⟨hr, by rw [if_neg (Ne.symm hkey), add_zero, hs]⟩
  · rw [List.mem_cons, not_or] at hk
    rw [h.fresh k hk.2, if_neg (Ne.symm hk.1), zero_add]

/-- A list read row by row. -/
theorem Sound.rows {scores : Scores α} {score : Region → α} {keys : List Region} (h : Sound scores score keys)
    (step : Scores α → RawSearchRow α × Nat → Scores α) (weight : α)
    (hstep : ∀ scores row rank, ∃ row' modify, step scores (row, rank) =
        bump scores row' (weight / (RRF_K + (rank : α) + 1)) modify ∧
      row'.region = row.region ∧ ∀ e, (modify e).region = e.region) (n : Nat) (rows : List (RawSearchRow α)) :
    Sound ((rows.zipIdx n).foldl step scores) (fun k => score k + rankSum weight k n rows)
      ((rows.map RawSearchRow.region).reverse ++ keys) := by
  induction rows generalizing scores score keys n with
  | nil => simpa [rankSum] using h
  | cons row rows ih =>
    obtain ⟨row', modify, heq, hregion, hmodify⟩ := hstep scores row n
    have hrest := ih (h.bumped row' (weight / (RRF_K + (n : α) + 1)) modify hmodify) (n + 1)
    simp only [hregion, add_assoc] at hrest
    rw [add_assoc] at heq
    simpa [rankSum, List.zipIdx_cons, heq, add_assoc] using hrest

variable [LinearOrder α]

/-- The map of scores after both lists. -/
theorem fuse_sound (semantic bm25 : List (RawSearchRow α)) :
    Sound (fuse semantic bm25) (fusedScore semantic bm25)
      ((bm25.map RawSearchRow.region).reverse ++ (semantic.map RawSearchRow.region).reverse) := by
  have hempty : Sound (∅ : Scores α) (fun _ => 0) [] :=
    ⟨fun k => by simp [AList.mem_keys], fun k s row hk => by simp at hk, fun _ _ => rfl⟩
  have hdense := hempty.rows addDense 1 (fun scores row rank => ⟨{ row with retrieval :=
    { row.retrieval with denseRank := some (rank + 1), denseScore := some (l2ToScore row.distance) } }, id, rfl, rfl,
    fun _ => rfl⟩) 0 semantic
  have hboth := hdense.rows addBm25 BM25_WEIGHT (fun scores row rank => ⟨{ row with retrieval :=
    { row.retrieval with bm25Rank := some (rank + 1), bm25Score := some row.distance } },
    fun existing => { existing with retrieval :=
      { existing.retrieval with bm25Rank := some (rank + 1), bm25Score := some row.distance } }, rfl, rfl,
    fun _ => rfl⟩) 0 bm25
  have hscore : (fun k => 0 + rankSum 1 k 0 semantic + rankSum BM25_WEIGHT k 0 bm25) = fusedScore semantic bm25 := by
    funext k
    rw [zero_add, fusedScore]
  rw [hscore, List.append_nil] at hboth
  exact hboth

end Scores

section Merge

variable {α : Type} [Field α] [LinearOrder α] {semantic bm25 : List (RawSearchRow α)}

/-- Where a region ranks. -/
def place (semantic bm25 : List (RawSearchRow α)) (k : Region) : αᵒᵈ ×ₗ (String ×ₗ ℕ) :=
  rankKey (fusedScore semantic bm25 k) k.1 k.2.1

/-- What every answer satisfies: each row carries its region's fused score, no region comes twice, the scores
fall, and the regions left out rank behind the ones kept. -/
structure Merged (semantic bm25 : List (RawSearchRow α)) (limit : Nat) (rows : List (RawSearchRow α)) : Prop where
  scored : ∀ row ∈ rows, row.retrieval.fusedScore = some (fusedScore semantic bm25 row.region)
  once : (rows.map RawSearchRow.region).Nodup
  sorted : rows.Pairwise fun a b => fusedScore semantic bm25 b.region ≤ fusedScore semantic bm25 a.region
  cut : ∃ dropped, (rows.map RawSearchRow.region ++ dropped).Perm (inputRegions semantic bm25) ∧
    (rows.map RawSearchRow.region ++ dropped).Pairwise (fun a b => place semantic bm25 a ≤ place semantic bm25 b) ∧
    rows.length = min limit (inputRegions semantic bm25).length

/-- No two regions of one file and first line have the same fused score, unless `limit` regions rank before
them. -/
def NoTieAbove (semantic bm25 : List (RawSearchRow α)) (limit : Nat) : Prop :=
  ∀ k₁ ∈ inputRegions semantic bm25, ∀ k₂ ∈ inputRegions semantic bm25, k₁ ≠ k₂ → k₁.1 = k₂.1 → k₁.2.1 = k₂.2.1 →
    fusedScore semantic bm25 k₁ = fusedScore semantic bm25 k₂ →
    limit ≤ (inputRegions semantic bm25).countP fun k => place semantic bm25 k < place semantic bm25 k₁

omit [Field α] in
theorem before_trans (a b c : α × RawSearchRow α) (hab : before a b = true) (hbc : before b c = true) :
    before a c = true := by
  rw [before, decide_eq_true_eq] at *
  exact le_trans hab hbc

omit [Field α] in
theorem before_total (a b : α × RawSearchRow α) : (before a b || before b a) = true := by
  rw [Bool.or_eq_true, before, before, decide_eq_true_eq, decide_eq_true_eq]
  exact le_total _ _

variable {values : List (α × RawSearchRow α)}

/-- A value of the map is found under its region. -/
theorem lookup_region (hvalues : values.Perm ((fuse semantic bm25).entries.map Sigma.snd)) {v : α × RawSearchRow α}
    (hv : v ∈ values) : (fuse semantic bm25).lookup v.2.region = some v := by
  obtain ⟨e, he, rfl⟩ := List.mem_map.mp (hvalues.mem_iff.mp hv)
  have hlookup : (fuse semantic bm25).lookup e.1 = some e.2 := AList.mem_lookup_iff.mpr he
  rw [((fuse_sound semantic bm25).value e.1 e.2.1 e.2.2 hlookup).1]
  exact hlookup

theorem score_eq (hvalues : values.Perm ((fuse semantic bm25).entries.map Sigma.snd)) {v : α × RawSearchRow α}
    (hv : v ∈ values) : v.1 = fusedScore semantic bm25 v.2.region :=
  ((fuse_sound semantic bm25).value _ v.1 v.2 (lookup_region hvalues hv)).2

theorem before_iff (hvalues : values.Perm ((fuse semantic bm25).entries.map Sigma.snd)) {a b : α × RawSearchRow α}
    (ha : a ∈ values) (hb : b ∈ values) :
    before a b = true ↔ place semantic bm25 a.2.region ≤ place semantic bm25 b.2.region := by
  rw [before, decide_eq_true_eq, score_eq hvalues ha, score_eq hvalues hb]
  exact Iff.rfl

/-- The values of the map are those of the regions read. -/
theorem regions_perm (hvalues : values.Perm ((fuse semantic bm25).entries.map Sigma.snd)) :
    (values.map fun v => v.2.region).Perm (inputRegions semantic bm25) := by
  have hkeys : ((fuse semantic bm25).entries.map Sigma.snd).map (fun v => v.2.region) = (fuse semantic bm25).keys := by
    rw [List.map_map]
    refine List.map_congr_left fun e he => ?_
    exact ((fuse_sound semantic bm25).value e.1 e.2.1 e.2.2 (AList.mem_lookup_iff.mpr he)).1
  refine (hvalues.map _).trans ?_
  rw [hkeys]
  refine (List.perm_ext_iff_of_nodup (AList.keys_nodup _) (List.nodup_dedup _)).mpr fun k => ?_
  rw [← AList.mem_keys, (fuse_sound semantic bm25).mem]
  simp [or_comm]

/-- Rows with the same regions are the same rows. -/
theorem eq_of_regions (hvalues : values.Perm ((fuse semantic bm25).entries.map Sigma.snd))
    {xs ys : List (α × RawSearchRow α)} (hxs : ∀ v ∈ xs, v ∈ values) (hys : ∀ v ∈ ys, v ∈ values)
    (h : (xs.map fun v => v.2.region) = ys.map fun v => v.2.region) : xs = ys := by
  have hfound : ∀ l : List (α × RawSearchRow α), (∀ v ∈ l, v ∈ values) →
      (l.map fun v => v.2.region).map (fuse semantic bm25).lookup = l.map some := by
    intro l hl
    rw [List.map_map]
    exact List.map_congr_left fun v hv => lookup_region hvalues (hl v hv)
  have hsome := congrArg (List.map (fuse semantic bm25).lookup) h
  rw [hfound xs hxs, hfound ys hys] at hsome
  exact List.map_injective_iff.mpr (Option.some_injective _) hsome

theorem region_finish (sqrt : α → α) (semantic : List (RawSearchRow α)) (limit : Nat) (values : List (α × RawSearchRow α)) :
    (finish sqrt semantic limit values).map RawSearchRow.region =
      ((values.mergeSort before).take limit).map fun v => v.2.region := by
  rw [finish, List.map_map]
  rfl

theorem finish_merged (sqrt : α → α) (limit : Nat)
    (hvalues : values.Perm ((fuse semantic bm25).entries.map Sigma.snd)) :
    Merged semantic bm25 limit (finish sqrt semantic limit values) := by
  have hsort := List.mergeSort_perm values before
  have hsorted := List.pairwise_mergeSort before_trans before_total values
  have hregions := regions_perm hvalues
  have hmem : ∀ v ∈ values.mergeSort before, v ∈ values := fun v hv => hsort.mem_iff.mp hv
  have hplaces : ((values.mergeSort before).map fun v => v.2.region).Pairwise
      fun a b => place semantic bm25 a ≤ place semantic bm25 b := by
    rw [List.pairwise_map]
    refine hsorted.imp_of_mem fun ha hb hab => ?_
    exact (before_iff hvalues (hmem _ ha) (hmem _ hb)).mp hab
  have hsplit : ((values.mergeSort before).take limit).map (fun v => v.2.region) ++
      ((values.mergeSort before).drop limit).map (fun v => v.2.region) =
      (values.mergeSort before).map fun v => v.2.region := by
    rw [← List.map_append, List.take_append_drop]
  have hall : ((values.mergeSort before).map fun v => v.2.region).Perm (inputRegions semantic bm25) :=
    (hsort.map _).trans hregions
  have hnodup : ((values.mergeSort before).map fun v => v.2.region).Nodup :=
    hall.nodup_iff.mpr (List.nodup_dedup _)
  refine ⟨fun row hrow => ?_, ?_, ?_, ((values.mergeSort before).drop limit).map (fun v => v.2.region), ?_, ?_, ?_⟩
  · obtain ⟨v, hv, rfl⟩ := List.mem_map.mp hrow
    exact congrArg some (score_eq hvalues (hmem v (List.mem_of_mem_take hv)))
  · rw [region_finish]
    exact hnodup.sublist ((List.take_sublist _ _).map _)
  · have htake := hplaces.sublist ((List.take_sublist limit (values.mergeSort before)).map fun v => v.2.region)
    rw [← region_finish sqrt semantic limit values, List.pairwise_map] at htake
    refine htake.imp fun hle => ?_
    rcases (Prod.Lex.le_iff).mp hle with hlt | ⟨heq, -⟩
    · exact le_of_lt hlt
    · exact le_of_eq heq.symm
  · rw [region_finish, hsplit]
    exact hall
  · rw [region_finish, hsplit]
    exact hplaces
  · rw [finish, List.length_map, List.length_take, ← hall.length_eq, List.length_map]

theorem ahead_eq (hvalues : values.Perm ((fuse semantic bm25).entries.map Sigma.snd)) {a : α × RawSearchRow α}
    (ha : a ∈ values) : Ranking.ahead before a values =
      (inputRegions semantic bm25).countP fun k => place semantic bm25 k < place semantic bm25 a.2.region := by
  rw [← (regions_perm hvalues).countP_eq, List.countP_map, Ranking.ahead]
  refine List.countP_congr fun v hv => ?_
  have := before_iff hvalues ha hv
  rw [Bool.not_eq_true', Bool.eq_false_iff, ne_eq, this, not_le]
  simp

/-- The tie-break of the sort leaves a region's last line out; that is all that can go wrong. -/
theorem noTieAbove_iff (limit : Nat) (hvalues : values.Perm ((fuse semantic bm25).entries.map Sigma.snd)) :
    NoTieAbove semantic bm25 limit ↔ ∀ a ∈ values, ∀ b ∈ values, a ≠ b → before a b = true → before b a = true →
      limit ≤ Ranking.ahead before a values := by
  have hregions := regions_perm hvalues
  constructor
  · intro h a ha b hb hne hab hba
    have hplace : place semantic bm25 a.2.region = place semantic bm25 b.2.region :=
      le_antisymm ((before_iff hvalues ha hb).mp hab) ((before_iff hvalues hb ha).mp hba)
    have hscore : fusedScore semantic bm25 a.2.region = fusedScore semantic bm25 b.2.region := congrArg Prod.fst hplace
    have hpath : a.2.filePath = b.2.filePath := congrArg (fun p => p.2.1) hplace
    have hline : a.2.startLine.toNat = b.2.startLine.toNat := congrArg (fun p => p.2.2) hplace
    have hdistinct : a.2.region ≠ b.2.region := by
      intro heq
      have hfound := lookup_region hvalues ha
      rw [heq, lookup_region hvalues hb] at hfound
      exact hne (Option.some.inj hfound).symm
    rw [ahead_eq hvalues ha]
    exact h _ (hregions.mem_iff.mp (List.mem_map_of_mem ha)) _ (hregions.mem_iff.mp (List.mem_map_of_mem hb)) hdistinct
      hpath (UInt32.toNat_inj.mp hline) hscore
  · intro h k₁ hk₁ k₂ hk₂ hne hpath hline hscore
    obtain ⟨a, ha, rfl⟩ := List.mem_map.mp (hregions.mem_iff.mpr hk₁)
    obtain ⟨b, hb, rfl⟩ := List.mem_map.mp (hregions.mem_iff.mpr hk₂)
    have hplace : place semantic bm25 a.2.region = place semantic bm25 b.2.region := by
      rw [place, place, hscore, hpath, hline]
    rw [← ahead_eq hvalues ha]
    refine h a ha b hb (fun heq => hne (by rw [heq])) ?_ ?_
    · exact (before_iff hvalues ha hb).mpr (le_of_eq hplace)
    · exact (before_iff hvalues hb ha).mpr (le_of_eq hplace.symm)

/-- A tie above the limit comes out in two ways. -/
theorem noTieAbove_of_deterministic {sqrt : α → α} {limit : Nat}
    (h : ∀ r₁ r₂, RrfMerge sqrt semantic bm25 limit r₁ → RrfMerge sqrt semantic bm25 limit r₂ → r₁ = r₂) :
    NoTieAbove semantic bm25 limit := by
  have hself : ((fuse semantic bm25).entries.map Sigma.snd).Perm ((fuse semantic bm25).entries.map Sigma.snd) := .refl _
  rw [noTieAbove_iff limit hself, ← Ranking.take_mergeSort_eq_iff before_trans before_total]
  intro e₁ e₂ he₁ he₂
  have hout := h _ _ ⟨e₁, he₁, rfl⟩ ⟨e₂, he₂, rfl⟩
  have hregions := congrArg (List.map RawSearchRow.region) hout
  rw [region_finish, region_finish] at hregions
  refine eq_of_regions hself (fun v hv => ?_) (fun v hv => ?_) hregions
  · exact he₁.mem_iff.mp ((List.mergeSort_perm e₁ before).mem_iff.mp (List.mem_of_mem_take hv))
  · exact he₂.mem_iff.mp ((List.mergeSort_perm e₂ before).mem_iff.mp (List.mem_of_mem_take hv))

/-- Every answer is merged, and there is one answer, exactly when no such tie reaches above the limit. -/
theorem rrfMerge_deterministic_iff (sqrt : α → α) (semantic bm25 : List (RawSearchRow α)) (limit : Nat) :
    ((∀ r₁ r₂, RrfMerge sqrt semantic bm25 limit r₁ → RrfMerge sqrt semantic bm25 limit r₂ → r₁ = r₂) ∧
        ∀ rows, RrfMerge sqrt semantic bm25 limit rows → Merged semantic bm25 limit rows) ↔
      NoTieAbove semantic bm25 limit := by
  constructor
  · exact fun h => noTieAbove_of_deterministic h.1
  · intro h
    rw [noTieAbove_iff limit (.refl _), ← Ranking.take_mergeSort_eq_iff before_trans before_total] at h
    refine ⟨?_, ?_⟩
    · rintro r₁ r₂ ⟨e₁, he₁, rfl⟩ ⟨e₂, he₂, rfl⟩
      rw [finish, finish, h e₁ e₂ he₁ he₂]
    · rintro rows ⟨e, he, rfl⟩
      exact finish_merged sqrt limit he

end Merge

def rowOf (filePath : String) (startLine endLine : UInt32) : RawSearchRow ℚ :=
  ⟨filePath, "rust", "", startLine, endLine, 0, {}⟩

/-- The lexical ranking of a query: a file's rows, and then a second chunk that starts on line 1 of `a.rs`. -/
def lexicalRows : List (RawSearchRow ℚ) :=
  ((List.range 61).map fun i => rowOf "b.rs" i.toUInt32 i.toUInt32) ++ [rowOf "a.rs" 1 9]

/-- The first dense rank weighs as much as the lexical rank number 62, and the two chunks share file and first
line: the map's order decides which one comes first. -/
theorem shared_start_line_ties :
    ¬∃ sqrt : ℚ → ℚ, ∀ r₁ r₂, RrfMerge sqrt [rowOf "a.rs" 1 5] lexicalRows 100 r₁ →
      RrfMerge sqrt [rowOf "a.rs" 1 5] lexicalRows 100 r₂ → r₁ = r₂ := by
  rintro ⟨sqrt, h⟩
  have htie := noTieAbove_of_deterministic h ("a.rs", 1, 5) (by decide) ("a.rs", 1, 9) (by decide)
    (by decide) rfl rfl (by decide +kernel)
  have hcount := htie.trans List.countP_le_length
  exact absurd hcount (by decide)

end Fusion
end Graph
end CodeSage
