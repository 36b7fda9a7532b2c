import Mathlib.Data.Rat.Cast.Order
import Mathlib.Algebra.Order.Field.Basic
import Mathlib.Order.Bounds.Basic
import CodeSage.Graph.Similar
import CodeSage.Lib.Assoc

/-!
# CodeSage.Graph.SimilarCorrect

The candidate search against an exhaustive comparison. `Passes` says which stored rows a seed would be
reported with if it were compared with all of them. `Best.Holds` is what the table knows about the
comparisons made so far; a threshold above `48 / 64` leaves no passing row outside the candidates.
-/

namespace CodeSage
namespace Graph
namespace Similar

open Lib CodeSage.Parser

section Table

/-- The table holds the best score of each position among the comparisons `M`, and a row it was reached with. -/
structure Best.Holds (best : Best) (M : StoredFingerprint → ℚ → Prop) : Prop where
  found : ∀ c q, M c q → ∃ s, best.lookup (position c) = some s
  row : ∀ pos s, best.lookup pos = some s → (s.filePath, s.lineStart) = pos ∧
    ∃ c q, M c q ∧ position c = pos ∧ s.name = c.name ∧ s.kind = c.kind ∧ s.lineEnd = c.lineEnd
  greatest : ∀ pos s, best.lookup pos = some s → IsGreatest {q | ∃ c, M c q ∧ position c = pos} s.jaccard

theorem Best.holds_empty : Best.Holds ∅ fun _ _ => False where
  found := by rintro c q ⟨⟩
  row := by intro pos s h; cases h
  greatest := by intro pos s h; cases h

theorem Best.Holds.congr {best : Best} {M N : StoredFingerprint → ℚ → Prop} (h : best.Holds M)
    (heq : ∀ c q, M c q ↔ N c q) : best.Holds N := by
  have : M = N := by
    funext c q
    exact propext (heq c q)
  rwa [← this]

/-- The entry after a comparison with score `score`. -/
def kept (c : StoredFingerprint) (score : ℚ) : Option SimilarSymbol → SimilarSymbol
  | some s => { s with jaccard := max s.jaccard score }
  | none => ⟨c.name, c.filePath, c.lineStart, c.lineEnd, c.kind, score⟩

theorem lookup_keep (best : Best) (c : StoredFingerprint) {score : ℚ} (hscore : 0 ≤ score) (pos : String × Nat) :
    (keep best c score).lookup pos =
      if pos = position c then some (kept c score (best.lookup (position c))) else best.lookup pos := by
  unfold keep
  cases hlookup : best.lookup (position c) with
  | none =>
    simp only [Option.getD_none]
    split
    · rw [lookup_insert, kept]
    · rename_i hlt
      have hzero : score = 0 := le_antisymm (not_lt.mp hlt) hscore
      rw [lookup_insert, hzero, kept]
  | some s =>
    simp only [Option.getD_some]
    split
    · rename_i hlt
      rw [lookup_insert, kept, max_eq_right hlt.le]
    · rename_i hlt
      rw [lookup_insert, kept, max_eq_left (not_lt.mp hlt)]

/-- A passing comparison enters the table. -/
theorem Best.Holds.keep {best : Best} {M : StoredFingerprint → ℚ → Prop} (h : best.Holds M)
    (c : StoredFingerprint) {score : ℚ} (hscore : 0 ≤ score) :
    (keep best c score).Holds fun c' q => M c' q ∨ c' = c ∧ q = score := by
  have hlookup := lookup_keep best c hscore
  constructor
  · intro c' q hM
    rw [hlookup]
    split
    · exact ⟨_, rfl⟩
    · rename_i hne
      rcases hM with hM | ⟨rfl, -⟩
      · exact h.found c' q hM
      · exact absurd rfl hne
  · intro pos s hs
    rw [hlookup] at hs
    split at hs
    · rename_i hpos
      cases hold : best.lookup (position c) with
      | none =>
        rw [hold] at hs
        cases hs
        exact ⟨hpos.symm, c, score, .inr ⟨rfl, rfl⟩, hpos.symm, rfl, rfl, rfl⟩
      | some old =>
        rw [hold] at hs
        cases hs
        obtain ⟨hat, c', q, hM, hc', hrow⟩ := h.row _ _ hold
        exact ⟨hat.trans hpos.symm, c', q, .inl hM, hc'.trans hpos.symm, hrow⟩
    · obtain ⟨hat, c', q, hM, hrow⟩ := h.row _ _ hs
      exact ⟨hat, c', q, .inl hM, hrow⟩
  · intro pos s hs
    rw [hlookup] at hs
    split at hs
    · rename_i hpos
      cases hold : best.lookup (position c) with
      | none =>
        rw [hold] at hs
        cases hs
        refine ⟨⟨c, .inr ⟨rfl, rfl⟩, hpos.symm⟩, ?_⟩
        rintro q ⟨c', hM | ⟨-, rfl⟩, hc'⟩
        · obtain ⟨s, hfound⟩ := h.found c' q hM
          rw [hc', hpos, hold] at hfound
          cases hfound
        · exact le_refl _
      | some old =>
        rw [hold] at hs
        cases hs
        obtain ⟨⟨c₀, hM₀, hc₀⟩, hbound⟩ := h.greatest _ _ hold
        constructor
        · rcases max_choice old.jaccard score with hmax | hmax
          · exact ⟨c₀, .inl (by rw [kept, hmax]; exact hM₀), hc₀.trans hpos.symm⟩
          · exact ⟨c, .inr ⟨rfl, hmax⟩, hpos.symm⟩
        · rintro q ⟨c', hM | ⟨-, rfl⟩, hc'⟩
          · exact le_trans (hbound ⟨c', hM, hc'.trans hpos⟩) (le_max_left _ _)
          · exact le_max_right _ _
    · rename_i hne
      obtain ⟨⟨c₀, hM₀, hc₀⟩, hbound⟩ := h.greatest _ _ hs
      refine ⟨⟨c₀, .inl hM₀, hc₀⟩, ?_⟩
      rintro q ⟨c', hM | ⟨rfl, -⟩, hc'⟩
      · exact hbound ⟨c', hM, hc'⟩
      · exact absurd hc'.symm hne

end Table

section Comparison

variable (isTest : String → Bool) (fingerprintsForLanguage : String → List StoredFingerprint)

/-- Comparing the seed with every stored fingerprint of its language reports `c` with score `q`. -/
def Passes (minJaccard : ℚ) (seed c : StoredFingerprint) (q : ℚ) : Prop :=
  ∃ tsig csig, asSig seed.fp = some tsig ∧ asSig c.fp = some csig ∧
    c ∈ fingerprintsForLanguage seed.language ∧ isTest c.filePath = false ∧
    ¬(c.filePath = seed.filePath ∧ c.lineStart = seed.lineStart) ∧ q = jaccard tsig csig ∧ minJaccard ≤ q

variable {isTest} {fingerprintsForLanguage}

theorem jaccard_nonneg (a b : Fingerprint) : 0 ≤ jaccard a b := by
  exact div_nonneg (Nat.cast_nonneg _) (Nat.cast_nonneg _)

/-- The comparisons of one seed with the rows numbered in `order`. -/
def Compared (rows : List StoredFingerprint) (minJaccard : ℚ) (seed : StoredFingerprint) (tsig : Fingerprint)
    (order : List Nat) (c : StoredFingerprint) (q : ℚ) : Prop :=
  ∃ ci ∈ order, ∃ csig, rows[ci]? = some c ∧ asSig c.fp = some csig ∧
    ¬(c.filePath = seed.filePath ∧ c.lineStart = seed.lineStart) ∧ q = jaccard tsig csig ∧ minJaccard ≤ q

/-- One step of the inner loop. -/
theorem compare_holds {index : LanguageFingerprintIndex} (seed : StoredFingerprint) (tsig : Fingerprint)
    (minJaccard : ℚ) {best : Best} {M : StoredFingerprint → ℚ → Prop} (h : best.Holds M) {ci : Nat}
    (hci : ci < index.rows.length) :
    ∃ best', compare index seed tsig minJaccard best ci = some best' ∧
      best'.Holds fun c q => M c q ∨ Compared index.rows minJaccard seed tsig [ci] c q := by
  have hrow : index.rows[ci]? = some index.rows[ci] := List.getElem?_eq_getElem hci
  generalize index.rows[ci] = c at hrow
  have hcompare : ∀ best' : Best, best'.Holds (fun c' q => M c' q ∨ c' = c ∧ ∃ csig, asSig c.fp = some csig ∧
      ¬(c.filePath = seed.filePath ∧ c.lineStart = seed.lineStart) ∧ q = jaccard tsig csig ∧ minJaccard ≤ q) →
      best'.Holds fun c' q => M c' q ∨ Compared index.rows minJaccard seed tsig [ci] c' q := by
    intro best' hholds
    refine hholds.congr fun c' q => or_congr_right ?_
    constructor
    · rintro ⟨rfl, csig, hrest⟩
      exact ⟨ci, List.mem_singleton_self _, csig, hrow, hrest⟩
    · rintro ⟨ci', hmem, csig, hrow', hrest⟩
      rw [List.mem_singleton.mp hmem, hrow] at hrow'
      cases hrow'
      exact ⟨rfl, csig, hrest⟩
  simp only [compare, hrow, Option.bind_eq_bind, Option.bind_some]
  split
  · rename_i hown
    refine ⟨best, rfl, hcompare best (h.congr fun c' q => ?_)⟩
    simp [hown]
  · rename_i hown
    cases hsig : asSig c.fp with
    | none =>
      refine ⟨best, rfl, hcompare best (h.congr fun c' q => ?_)⟩
      simp [hsig]
    | some csig =>
      simp only
      split
      · rename_i hlt
        refine ⟨best, rfl, hcompare best (h.congr fun c' q => ?_)⟩
        simp only [hsig, Option.some.injEq, exists_eq_left', iff_self_or]
        rintro ⟨-, -, rfl, hle⟩
        exact absurd hlt (not_lt.mpr hle)
      · rename_i hlt
        refine ⟨_, rfl, hcompare _ ((h.keep c (jaccard_nonneg tsig csig)).congr fun c' q => or_congr_right ?_)⟩
        simp only [hsig, Option.some.injEq, exists_eq_left']
        constructor
        · rintro ⟨rfl, rfl⟩
          exact ⟨rfl, hown, rfl, not_lt.mp hlt⟩
        · rintro ⟨rfl, -, rfl, -⟩
          exact ⟨rfl, rfl⟩

/-- The inner loop, in any order of the candidates. -/
theorem foldlM_compare {index : LanguageFingerprintIndex} {seed : StoredFingerprint} {tsig : Fingerprint}
    {minJaccard : ℚ} {order : List Nat} : ∀ {best : Best} {M : StoredFingerprint → ℚ → Prop}, best.Holds M →
    (∀ ci ∈ order, ci < index.rows.length) →
    ∃ best', order.foldlM (compare index seed tsig minJaccard) best = some best' ∧
      best'.Holds fun c q => M c q ∨ Compared index.rows minJaccard seed tsig order c q := by
  induction order with
  | nil =>
    intro best M h _
    exact ⟨best, rfl, h.congr fun c q => by simp [Compared]⟩
  | cons ci order ih =>
    intro best M h hlt
    obtain ⟨best₁, h₁, hholds₁⟩ := compare_holds seed tsig minJaccard h (hlt ci List.mem_cons_self)
    obtain ⟨best₂, h₂, hholds₂⟩ := ih hholds₁ fun i hi => hlt i (List.mem_cons_of_mem _ hi)
    refine ⟨best₂, by rw [List.foldlM_cons, h₁]; exact h₂, hholds₂.congr fun c q => ?_⟩
    rw [or_assoc]
    refine or_congr_right ?_
    simp only [Compared, List.mem_cons, or_and_right, exists_or, List.not_mem_nil, or_false]

end Comparison

section Exhaustive

variable {isTest : String → Bool} {fingerprintsForLanguage : String → List StoredFingerprint}

theorem mem_candidates {rows : List StoredFingerprint} {tsig : Fingerprint} {ci : Nat} :
    ci ∈ candidates (buildLanguageIndex isTest rows) tsig ↔
      ∃ c csig, rows[ci]? = some c ∧ isTest c.filePath = false ∧ asSig c.fp = some csig ∧
        ∃ key ∈ bandKeys tsig, key ∈ bandKeys csig := by
  simp only [candidates, buildLanguageIndex, List.mem_flatMap, mem_fileRows, filedKeys]
  constructor
  · rintro ⟨key, hkey, c, hrow, hfiled⟩
    split at hfiled
    · cases hfiled
    · rename_i htest
      cases hsig : asSig c.fp with
      | none =>
        rw [hsig] at hfiled
        cases hfiled
      | some csig =>
        rw [hsig] at hfiled
        exact ⟨c, csig, hrow, by simpa using htest, hsig, key, hkey, hfiled⟩
  · rintro ⟨c, csig, hrow, htest, hsig, key, hkey, hfiled⟩
    refine ⟨key, hkey, c, hrow, ?_⟩
    simpa [htest, hsig] using hfiled

/-- The candidate search compares the seed with `c`: they share a band key, and `c` passes. -/
def Meets (isTest : String → Bool) (fingerprintsForLanguage : String → List StoredFingerprint) (minJaccard : ℚ)
    (seed c : StoredFingerprint) (q : ℚ) : Prop :=
  Passes isTest fingerprintsForLanguage minJaccard seed c q ∧
    ∃ tsig csig, asSig seed.fp = some tsig ∧ asSig c.fp = some csig ∧ ∃ key ∈ bandKeys tsig, key ∈ bandKeys csig

theorem compared_iff_meets {minJaccard : ℚ} {seed : StoredFingerprint} {tsig : Fingerprint}
    (hseed : asSig seed.fp = some tsig) {order : List Nat}
    (horder : Visits order (candidates (buildLanguageIndex isTest (fingerprintsForLanguage seed.language)) tsig))
    (c : StoredFingerprint) (q : ℚ) :
    Compared (fingerprintsForLanguage seed.language) minJaccard seed tsig order c q ↔
      Meets isTest fingerprintsForLanguage minJaccard seed c q := by
  constructor
  · rintro ⟨ci, hmem, csig, hrow, hsig, hown, hq, hle⟩
    obtain ⟨c', csig', hrow', htest, hsig', hshared⟩ := mem_candidates.mp ((horder.2 ci).mp hmem)
    rw [hrow] at hrow'
    cases hrow'
    exact ⟨⟨tsig, csig, hseed, hsig, List.mem_of_getElem? hrow, htest, hown, hq, hle⟩, tsig, csig', hseed, hsig',
      hshared⟩
  · rintro ⟨⟨tsig', csig, hseed', hsig, hmem, htest, hown, hq, hle⟩, tsig₂, csig₂, hseed₂, hsig₂, hshared⟩
    rw [hseed] at hseed' hseed₂
    rw [hsig] at hsig₂
    cases hseed'
    cases hseed₂
    cases hsig₂
    obtain ⟨ci, hrow⟩ := List.getElem?_of_mem hmem
    exact ⟨ci, (horder.2 ci).mpr (mem_candidates.mpr ⟨c, csig, hrow, htest, hsig, hshared⟩), csig, hrow, hsig,
      hown, hq, hle⟩

/-- Above `48 / 64` the candidates hold every row that passes. -/
theorem meets_iff_passes {minJaccard : ℚ} (hmin : 48 / 64 < minJaccard) (seed c : StoredFingerprint) (q : ℚ) :
    Meets isTest fingerprintsForLanguage minJaccard seed c q ↔
      Passes isTest fingerprintsForLanguage minJaccard seed c q := by
  constructor
  · exact fun h => h.1
  · intro h
    have ⟨tsig, csig, hseed, hsig, _, _, _, hq, hle⟩ := h
    exact ⟨h, tsig, csig, hseed, hsig, exists_shared_bandKey (agree_of_jaccard hmin (hq ▸ hle))⟩

theorem visits_lt {rows : List StoredFingerprint} {tsig : Fingerprint} {order : List Nat}
    (horder : Visits order (candidates (buildLanguageIndex isTest rows) tsig)) :
    ∀ ci ∈ order, ci < (buildLanguageIndex isTest rows).rows.length := by
  intro ci hci
  obtain ⟨c, csig, hrow, -⟩ := mem_candidates.mp ((horder.2 ci).mp hci)
  exact (List.getElem?_eq_some_iff.mp hrow).1

/-- The whole run holds the comparisons of its seeds, whatever the order. -/
theorem search_meets {minJaccard : ℚ} {best : Best} {seeds : List StoredFingerprint}
    {r : Option Best} (h : Search isTest fingerprintsForLanguage minJaccard best seeds r) :
    ∀ {M : StoredFingerprint → ℚ → Prop}, best.Holds M → ∃ best', r = some best' ∧
      best'.Holds fun c q => M c q ∨ ∃ seed ∈ seeds, Meets isTest fingerprintsForLanguage minJaccard seed c q := by
  induction h with
  | done =>
    intro M hbest
    exact ⟨_, rfl, hbest.congr fun c q => by simp⟩
  | @skip best seed seeds r hsig _ ih =>
    intro M hbest
    obtain ⟨best', hr, hholds⟩ := ih hbest
    refine ⟨best', hr, hholds.congr fun c q => or_congr_right ?_⟩
    have hnone : ¬Meets isTest fingerprintsForLanguage minJaccard seed c q := by
      rintro ⟨⟨tsig, -, hseed, -⟩, -⟩
      rw [hsig] at hseed
      cases hseed
    simp [hnone]
  | @seed best seed seeds tsig order best₁ r hsig horder hloop _ ih =>
    intro M hbest
    obtain ⟨best₁', hloop', hholds₁⟩ := foldlM_compare hbest (visits_lt horder)
    rw [hloop] at hloop'
    cases hloop'
    obtain ⟨best', hr, hholds⟩ := ih hholds₁
    refine ⟨best', hr, hholds.congr fun c q => ?_⟩
    rw [or_assoc]
    refine or_congr_right ?_
    simp only [buildLanguageIndex, List.mem_cons, or_and_right, exists_or, exists_eq_left,
      compared_iff_meets hsig horder c q]
  | @panic best seed seeds tsig order hsig horder hloop =>
    intro M hbest
    obtain ⟨best₁', hloop', -⟩ := foldlM_compare hbest (visits_lt horder)
    rw [hloop] at hloop'
    cases hloop'

/-- Above `48 / 64` it holds what comparing each seed with every row would give. -/
theorem search_holds {minJaccard : ℚ} (hmin : 48 / 64 < minJaccard) {best : Best} {seeds : List StoredFingerprint}
    {r : Option Best} (h : Search isTest fingerprintsForLanguage minJaccard best seeds r)
    {M : StoredFingerprint → ℚ → Prop} (hbest : best.Holds M) : ∃ best', r = some best' ∧
      best'.Holds fun c q => M c q ∨ ∃ seed ∈ seeds, Passes isTest fingerprintsForLanguage minJaccard seed c q := by
  obtain ⟨best', hr, hholds⟩ := search_meets h hbest
  refine ⟨best', hr, hholds.congr fun c q => ?_⟩
  simp only [meets_iff_passes hmin]

/-- The candidates can always be visited, so a run always has an outcome. -/
theorem search_exists (minJaccard : ℚ) (seeds : List StoredFingerprint) :
    ∀ best : Best, ∃ r, Search isTest fingerprintsForLanguage minJaccard best seeds r := by
  induction seeds with
  | nil => exact fun best => ⟨some best, .done⟩
  | cons seed seeds ih =>
    intro best
    cases hsig : asSig seed.fp with
    | none =>
      obtain ⟨r, hr⟩ := ih best
      exact ⟨r, .skip hsig hr⟩
    | some tsig =>
      let index := buildLanguageIndex isTest (fingerprintsForLanguage seed.language)
      have hvisits : Visits (candidates index tsig).dedup (candidates index tsig) :=
        ⟨List.nodup_dedup _, fun i => List.mem_dedup⟩
      cases hloop : (candidates index tsig).dedup.foldlM (compare index seed tsig minJaccard) best with
      | none => exact ⟨none, .panic hsig hvisits hloop⟩
      | some best' =>
        obtain ⟨r, hr⟩ := ih best'
        exact ⟨r, .seed hsig hvisits hloop hr⟩

theorem mem_sortedRows {best : Best} {s : SimilarSymbol} :
    s ∈ sortedRows best ↔ ∃ pos, best.lookup pos = some s := by
  rw [sortedRows, List.mem_mergeSort, List.mem_map]
  constructor
  · rintro ⟨⟨pos, s'⟩, hmem, rfl⟩
    exact ⟨pos, AList.mem_lookup_iff.mpr hmem⟩
  · rintro ⟨pos, hlookup⟩
    exact ⟨⟨pos, s⟩, AList.mem_lookup_iff.mp hlookup, rfl⟩

/-- Each position is reported once. -/
theorem nodup_sortedRows {best : Best} {M : StoredFingerprint → ℚ → Prop} (h : best.Holds M) :
    ((sortedRows best).map fun s => (s.filePath, s.lineStart)).Nodup := by
  have hkeys : (best.entries.map Sigma.snd).map (fun s => (s.filePath, s.lineStart)) = best.keys := by
    rw [List.map_map]
    refine List.map_congr_left fun e he => ?_
    exact (h.row e.1 e.2 (AList.mem_lookup_iff.mpr he)).1
  have hperm := (List.mergeSort_perm (best.entries.map Sigma.snd) before).map
    fun s => (s.filePath, s.lineStart)
  rw [sortedRows, hperm.nodup_iff, hkeys]
  exact best.nodupKeys

theorem threshold_gt {minJaccard : Option ℚ} (h : ∀ q, minJaccard = some q → 48 / 64 < q) :
    48 / 64 < threshold minJaccard := by
  cases minJaccard with
  | none =>
    rw [threshold]
    norm_num
  | some q => exact lt_max_of_lt_right (lt_min (h q rfl) (by norm_num))

/-- Above `48 / 64` the search reports what an exhaustive comparison would: one row for each position with
a passing fingerprint, with the best of its scores. -/
theorem find_similar_exhaustive :
    (∀ a b : Fingerprint, 49 ≤ agree a b → ∃ key, key ∈ bandKeys a ∧ key ∈ bandKeys b) ∧
    ∀ (isTest : String → Bool) (fingerprintsForLanguage : String → List StoredFingerprint)
      (minJaccard : Option ℚ) (seeds : List StoredFingerprint), (∀ q, minJaccard = some q → 48 / 64 < q) →
      (∃ r, Search isTest fingerprintsForLanguage (threshold minJaccard) ∅ seeds r) ∧
      ∀ r, Search isTest fingerprintsForLanguage (threshold minJaccard) ∅ seeds r → ∃ best, r = some best ∧
        ((sortedRows best).map fun s => (s.filePath, s.lineStart)).Nodup ∧
        (∀ file line score,
          (∃ s ∈ sortedRows best, s.filePath = file ∧ s.lineStart = line ∧ s.jaccard = score) ↔
            IsGreatest {q | ∃ seed ∈ seeds, ∃ c, position c = (file, line) ∧
              Passes isTest fingerprintsForLanguage (threshold minJaccard) seed c q} score) ∧
        ∀ s ∈ sortedRows best, ∃ seed ∈ seeds, ∃ c q,
          Passes isTest fingerprintsForLanguage (threshold minJaccard) seed c q ∧
          position c = (s.filePath, s.lineStart) ∧ s.name = c.name ∧ s.kind = c.kind ∧ s.lineEnd = c.lineEnd := by
  refine ⟨fun a b h => exists_shared_bandKey h, ?_⟩
  intro isTest fingerprintsForLanguage minJaccard seeds hmin
  refine ⟨search_exists _ seeds ∅, fun r hr => ?_⟩
  obtain ⟨best, rfl, hbest⟩ := search_holds (threshold_gt hmin) hr Best.holds_empty
  have hholds : best.Holds fun c q =>
      ∃ seed ∈ seeds, Passes isTest fingerprintsForLanguage (threshold minJaccard) seed c q :=
    hbest.congr fun c q => by simp
  have hset : ∀ pos, {q | ∃ c, (∃ seed ∈ seeds, Passes isTest fingerprintsForLanguage (threshold minJaccard) seed c q) ∧
      position c = pos} = {q | ∃ seed ∈ seeds, ∃ c, position c = pos ∧
        Passes isTest fingerprintsForLanguage (threshold minJaccard) seed c q} := by
    intro pos
    ext q
    constructor
    · rintro ⟨c, ⟨seed, hseed, hpass⟩, hpos⟩
      exact ⟨seed, hseed, c, hpos, hpass⟩
    · rintro ⟨seed, hseed, c, hpos, hpass⟩
      exact ⟨c, ⟨seed, hseed, hpass⟩, hpos⟩
  refine ⟨best, rfl, nodup_sortedRows hholds, fun file line score => ?_, fun s hs => ?_⟩
  · constructor
    · rintro ⟨s, hs, rfl, rfl, rfl⟩
      obtain ⟨pos, hlookup⟩ := mem_sortedRows.mp hs
      rw [← hset, (hholds.row _ _ hlookup).1]
      exact hholds.greatest _ _ hlookup
    · intro hgreatest
      obtain ⟨seed, hseed, c, hpos, hpass⟩ := hgreatest.1
      obtain ⟨s, hlookup⟩ := hholds.found c score ⟨seed, hseed, hpass⟩
      have hat := (hholds.row _ _ hlookup).1
      have hs := hholds.greatest _ _ hlookup
      rw [hset, hpos] at hs
      rw [hpos, Prod.mk.injEq] at hat
      exact ⟨s, mem_sortedRows.mpr ⟨_, hlookup⟩, hat.1, hat.2, hs.unique hgreatest⟩
  · obtain ⟨pos, hlookup⟩ := mem_sortedRows.mp hs
    obtain ⟨hat, c, q, ⟨seed, hseed, hpass⟩, hpos, hrow⟩ := hholds.row _ _ hlookup
    exact ⟨seed, hseed, c, q, hpass, hpos.trans hat.symm, hrow⟩

end Exhaustive

section Clones

/-- A function and its copy in another file. -/
def original : StoredFingerprint := ⟨"a.rs", "rust", "f", "function", 1, 9, List.replicate 64 7⟩

def copy : StoredFingerprint := ⟨"b.rs", "rust", "g", "function", 3, 11, List.replicate 64 7⟩

theorem jaccard_le_one (a b : Fingerprint) : jaccard a b ≤ 1 := by
  have hle : agree a b ≤ MINHASH_K := by
    have := List.countP_le_length (l := List.finRange MINHASH_K) (p := fun i => a.get i == b.get i)
    rwa [List.length_finRange] at this
  have hcast : (agree a b : ℚ) ≤ (MINHASH_K : ℚ) := by exact_mod_cast hle
  exact div_le_one_of_le₀ hcast (Nat.cast_nonneg _)

theorem agree_self (a : Fingerprint) : agree a a = MINHASH_K := by
  simp [agree]

theorem jaccard_self (a : Fingerprint) : jaccard a a = 1 := by
  rw [jaccard, agree_self]
  norm_num [MINHASH_K]

/-- The copy is reported at `0.9`. -/
theorem find_similar_exhaustive_copy : ∀ r,
    Search (fun _ => false) (fun _ => [original, copy]) (threshold (some (9 / 10))) ∅ [original] r →
      ∃ best, r = some best ∧
        ∃ s ∈ sortedRows best, s.filePath = "b.rs" ∧ s.lineStart = 3 ∧ s.jaccard = 1 := by
  intro r hr
  have hmin : ∀ q : ℚ, some (9 / 10 : ℚ) = some q → 48 / 64 < q := by
    rintro q ⟨⟩
    norm_num
  obtain ⟨best, hbest, -, hrows, -⟩ :=
    (find_similar_exhaustive.2 (fun _ => false) (fun _ => [original, copy]) (some (9 / 10)) [original] hmin).2 r hr
  refine ⟨best, hbest, (hrows "b.rs" 3 1).mpr ⟨?_, ?_⟩⟩
  · obtain ⟨sig, hsig⟩ : ∃ sig, asSig (List.replicate 64 7) = some sig := ⟨_, rfl⟩
    refine ⟨original, List.mem_singleton_self _, copy, rfl, sig, sig, hsig, hsig, by simp, rfl, ?_, ?_, ?_⟩
    · simp [original, copy]
    · exact (jaccard_self sig).symm
    · norm_num [threshold]
  · rintro q ⟨seed, -, c, -, tsig, csig, -, -, -, -, -, rfl, -⟩
    exact jaccard_le_one tsig csig

end Clones

end Similar
end Graph
end CodeSage
