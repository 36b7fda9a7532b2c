import CodeSage.Graph.SimilarCorrect

/-!
# CodeSage.Graph.SimilarOrder

What the answer of the search owes to the order of its hash tables. The positions and their scores owe it
nothing: `before` is a linear order of the positions, so the sorted answer is a function of the comparisons
(`ranking_unique`). The name, kind and last line of a position are those of the first candidate met there, so
they are fixed only where the candidates of the first seed that reaches the position agree.
-/

namespace CodeSage
namespace Graph
namespace Similar

open Lib CodeSage.Parser

section Order

theorem textLt_trichotomy (a b : String) : textLt a b ∨ a = b ∨ textLt b a := by
  by_cases hlt : textLt a b
  · exact .inl hlt
  · by_cases heq : a = b
    · exact .inr (.inl heq)
    · exact .inr (.inr (textLt_of_not hlt heq))

theorem textLt_trans {a b c : String} (hab : textLt a b) (hbc : textLt b c) : textLt a c :=
  String.lt_trans hab hbc

/-- A position with the score it is ranked by. -/
abbrev Ranked := (String × Nat) × ℚ

/-- `a` stands above `b` in an answer. -/
def Ahead (a b : Ranked) : Prop :=
  b.2 < a.2 ∨ a.2 = b.2 ∧ (textLt a.1.1 b.1.1 ∨ a.1.1 = b.1.1 ∧ a.1.2 < b.1.2)

def ranked (s : SimilarSymbol) : Ranked := ((s.filePath, s.lineStart), s.jaccard)

theorem Ahead.irrefl (a : Ranked) : ¬Ahead a a := by
  rintro (h | ⟨-, h | ⟨-, h⟩⟩)
  · exact lt_irrefl _ h
  · exact textLt_ne h rfl
  · exact lt_irrefl _ h

theorem Ahead.trans {a b c : Ranked} (hab : Ahead a b) (hbc : Ahead b c) : Ahead a c := by
  rcases hab with hab | ⟨heq, hab⟩
  · rcases hbc with hbc | ⟨heq', -⟩
    · exact .inl (hbc.trans hab)
    · exact .inl (heq' ▸ hab)
  · rcases hbc with hbc | ⟨heq', hbc⟩
    · exact .inl (heq ▸ hbc)
    · refine .inr ⟨heq.trans heq', ?_⟩
      rcases hab with hab | ⟨hfile, hab⟩
      · rcases hbc with hbc | ⟨hfile', -⟩
        · exact .inl (textLt_trans hab hbc)
        · exact .inl (hfile' ▸ hab)
      · rcases hbc with hbc | ⟨hfile', hbc⟩
        · exact .inl (hfile ▸ hbc)
        · exact .inr ⟨hfile.trans hfile', hab.trans hbc⟩

theorem Ahead.trichotomy (a b : Ranked) : Ahead a b ∨ a = b ∨ Ahead b a := by
  rcases lt_trichotomy a.2 b.2 with hlt | heq | hgt
  · exact .inr (.inr (.inl hlt))
  · rcases textLt_trichotomy a.1.1 b.1.1 with hlt | hfile | hgt
    · exact .inl (.inr ⟨heq, .inl hlt⟩)
    · rcases lt_trichotomy a.1.2 b.1.2 with hlt | hline | hgt
      · exact .inl (.inr ⟨heq, .inr ⟨hfile, hlt⟩⟩)
      · exact .inr (.inl (Prod.ext (Prod.ext hfile hline) heq))
      · exact .inr (.inr (.inr ⟨heq.symm, .inr ⟨hfile.symm, hgt⟩⟩))
    · exact .inr (.inr (.inr ⟨heq.symm, .inl hgt⟩))
  · exact .inl (.inl hgt)

theorem before_iff (a b : SimilarSymbol) : before a b = true ↔ Ahead (ranked a) (ranked b) ∨ ranked a = ranked b := by
  unfold before
  split
  · rename_i hscore
    split
    · rename_i hfile
      simp only [decide_eq_true_eq, Ahead, ranked, hscore, hfile, lt_irrefl, true_and, false_or, Prod.mk.injEq,
        and_true]
      constructor
      · intro hle
        rcases lt_or_eq_of_le hle with hlt | heq
        · exact .inl (.inr hlt)
        · exact .inr heq
      · rintro ((h | h) | h)
        · exact absurd rfl (textLt_ne h)
        · exact h.le
        · exact h.le
    · rename_i hfile
      simp [Ahead, ranked, hscore, hfile]
  · rename_i hscore
    simp [Ahead, ranked, hscore]

theorem before_trans (a b c : SimilarSymbol) (hab : before a b = true) (hbc : before b c = true) :
    before a c = true := by
  rw [before_iff] at *
  rcases hab with hab | hab
  · rcases hbc with hbc | hbc
    · exact .inl (hab.trans hbc)
    · exact .inl (hbc ▸ hab)
  · exact hab ▸ hbc

theorem before_total (a b : SimilarSymbol) : (before a b || before b a) = true := by
  rw [Bool.or_eq_true, before_iff, before_iff]
  rcases Ahead.trichotomy (ranked a) (ranked b) with h | h | h
  · exact .inl (.inl h)
  · exact .inl (.inr h)
  · exact .inr (.inl h)

/-- A sorted answer with one row a position is strictly sorted. -/
theorem pairwise_ahead {values : List SimilarSymbol} (hnodup : (values.map ranked).Nodup) :
    ((values.mergeSort before).map ranked).Pairwise Ahead := by
  have hsorted := List.pairwise_mergeSort before_trans before_total values
  have hnodup' : ((values.mergeSort before).map ranked).Nodup :=
    ((List.mergeSort_perm values before).map ranked).nodup_iff.mpr hnodup
  rw [List.pairwise_map]
  rw [List.Nodup, List.pairwise_map] at hnodup'
  refine (hsorted.and hnodup').imp ?_
  rintro a b ⟨hbefore, hne⟩
  rcases (before_iff a b).mp hbefore with h | h
  · exact h
  · exact absurd h hne

/-- Two strictly sorted lists with the same members are equal. -/
theorem ranking_unique {l₁ l₂ : List Ranked} (h₁ : l₁.Pairwise Ahead) (h₂ : l₂.Pairwise Ahead)
    (hmem : ∀ a, a ∈ l₁ ↔ a ∈ l₂) : l₁ = l₂ := by
  have hnodup : ∀ {l : List Ranked}, l.Pairwise Ahead → l.Nodup := by
    intro l h
    refine h.imp ?_
    rintro a b hab rfl
    exact Ahead.irrefl a hab
  refine List.Perm.eq_of_pairwise ?_ h₁ h₂ ((List.perm_ext_iff_of_nodup (hnodup h₁) (hnodup h₂)).mpr hmem)
  intro a b _ _ hab hba
  exact absurd (hab.trans hba) (Ahead.irrefl a)

/-- In a strictly sorted list the first `limit` are those with fewer than `limit` members ahead of them. -/
theorem mem_take_iff {l : List Ranked} (hl : l.Pairwise Ahead) {a : Ranked} (ha : a ∈ l) (limit : Nat) :
    a ∈ l.take limit ↔
      ∀ ps : List Ranked, ps.Nodup → (∀ p ∈ ps, p ∈ l ∧ Ahead p a) → ps.length < limit := by
  obtain ⟨pre, post, rfl⟩ := List.append_of_mem ha
  obtain ⟨hpre, hpost, hcross⟩ := List.pairwise_append.mp hl
  have habove : ∀ p ∈ pre, Ahead p a := fun p hp => hcross p hp a List.mem_cons_self
  have hbelow : ∀ p ∈ post, Ahead a p := (List.pairwise_cons.mp hpost).1
  constructor
  · intro htake ps hnodup hps
    have hlen : pre.length < limit := by
      by_contra hle
      rw [List.take_append_of_le_length (not_lt.mp hle)] at htake
      exact Ahead.irrefl a (habove a (List.mem_of_mem_take htake))
    have hsub : ps ⊆ pre := by
      intro p hp
      obtain ⟨hmem, hahead⟩ := hps p hp
      rcases List.mem_append.mp hmem with hmem | hmem
      · exact hmem
      · rcases List.mem_cons.mp hmem with rfl | hmem
        · exact absurd hahead (Ahead.irrefl p)
        · exact absurd (hahead.trans (hbelow p hmem)) (Ahead.irrefl p)
    exact lt_of_le_of_lt (hnodup.subperm hsub).length_le hlen
  · intro hfew
    have hlen : pre.length < limit := by
      refine hfew pre (hpre.imp ?_) fun p hp => ⟨List.mem_append_left _ hp, habove p hp⟩
      rintro x y hxy rfl
      exact Ahead.irrefl x hxy
    rw [List.take_append, List.take_cons (by omega)]
    exact List.mem_append_right _ List.mem_cons_self

end Order

section Labels

variable (isTest : String → Bool) (fingerprintsForLanguage : String → List StoredFingerprint) (minJaccard : ℚ)

/-- What a row takes from the first candidate met at its position. -/
def label (s : SimilarSymbol) : String × String × Nat := (s.name, s.kind, s.lineEnd)

def labelOf (c : StoredFingerprint) : String × String × Nat := (c.name, c.kind, c.lineEnd)

/-- `c` is a candidate at `pos` of the first seed that has one there. -/
def FirstAt (seeds : List StoredFingerprint) (pos : String × Nat) (c : StoredFingerprint) : Prop :=
  ∃ earlier seed later, seeds = earlier ++ seed :: later ∧
    (∀ s ∈ earlier, ∀ c' q, position c' = pos → ¬Meets isTest fingerprintsForLanguage minJaccard s c' q) ∧
    position c = pos ∧ ∃ q, Meets isTest fingerprintsForLanguage minJaccard seed c q

variable {isTest fingerprintsForLanguage minJaccard}

theorem FirstAt.append {seeds : List StoredFingerprint} {pos : String × Nat} {c : StoredFingerprint}
    (h : FirstAt isTest fingerprintsForLanguage minJaccard seeds pos c) (more : List StoredFingerprint) :
    FirstAt isTest fingerprintsForLanguage minJaccard (seeds ++ more) pos c := by
  obtain ⟨earlier, seed, later, rfl, hrest⟩ := h
  exact ⟨earlier, seed, later ++ more, by simp, hrest⟩

theorem keep_label (best : Best) (c : StoredFingerprint) {score : ℚ} (hscore : 0 ≤ score) {pos : String × Nat}
    {s : SimilarSymbol} (h : best.lookup pos = some s) :
    ∃ s', (keep best c score).lookup pos = some s' ∧ label s' = label s := by
  rw [lookup_keep best c hscore]
  split
  · rename_i hpos
    subst hpos
    rw [h]
    exact ⟨_, rfl, rfl⟩
  · exact ⟨s, h, rfl⟩

/-- A comparison never renames a row. -/
theorem compare_label {index : LanguageFingerprintIndex} {seed : StoredFingerprint} {tsig : Fingerprint}
    {best best' : Best} {ci : Nat} (hcompare : compare index seed tsig minJaccard best ci = some best')
    {pos : String × Nat} {s : SimilarSymbol} (h : best.lookup pos = some s) :
    ∃ s', best'.lookup pos = some s' ∧ label s' = label s := by
  unfold compare at hcompare
  cases hrow : index.rows[ci]? with
  | none =>
    rw [hrow] at hcompare
    cases hcompare
  | some c =>
    simp only [hrow, Option.bind_eq_bind, Option.bind_some] at hcompare
    split at hcompare
    · cases hcompare
      exact ⟨s, h, rfl⟩
    · split at hcompare
      · cases hcompare
        exact ⟨s, h, rfl⟩
      · rename_i csig _
        split at hcompare
        · cases hcompare
          exact ⟨s, h, rfl⟩
        · cases hcompare
          exact keep_label best c (jaccard_nonneg tsig csig) h

theorem foldlM_compare_label {index : LanguageFingerprintIndex} {seed : StoredFingerprint} {tsig : Fingerprint}
    {order : List Nat} {pos : String × Nat} : ∀ {best best' : Best} {s : SimilarSymbol},
    order.foldlM (compare index seed tsig minJaccard) best = some best' → best.lookup pos = some s →
    ∃ s', best'.lookup pos = some s' ∧ label s' = label s := by
  induction order with
  | nil =>
    intro best best' s hloop h
    cases hloop
    exact ⟨s, h, rfl⟩
  | cons ci order ih =>
    intro best best' s hloop h
    rw [List.foldlM_cons] at hloop
    obtain ⟨best₁, hcompare, hloop⟩ := Option.bind_eq_some_iff.mp hloop
    obtain ⟨s₁, h₁, hlabel₁⟩ := compare_label hcompare h
    obtain ⟨s₂, h₂, hlabel₂⟩ := ih hloop h₁
    exact ⟨s₂, h₂, hlabel₂.trans hlabel₁⟩

theorem Search.keeps_label {best : Best} {seeds : List StoredFingerprint} {r : Option Best}
    (h : Search isTest fingerprintsForLanguage minJaccard best seeds r) {pos : String × Nat} :
    ∀ {best' : Best} {s : SimilarSymbol}, r = some best' → best.lookup pos = some s →
      ∃ s', best'.lookup pos = some s' ∧ label s' = label s := by
  induction h with
  | done =>
    intro best' s hr hs
    cases hr
    exact ⟨s, hs, rfl⟩
  | skip _ _ ih => exact ih
  | seed _ _ hloop _ ih =>
    intro best' s hr hs
    obtain ⟨s₁, h₁, hlabel₁⟩ := foldlM_compare_label hloop hs
    obtain ⟨s₂, h₂, hlabel₂⟩ := ih hr h₁
    exact ⟨s₂, h₂, hlabel₂.trans hlabel₁⟩
  | panic _ _ _ =>
    intro best' s hr
    cases hr

/-- The comparisons of the seeds done so far. -/
def Done (isTest : String → Bool) (fingerprintsForLanguage : String → List StoredFingerprint) (minJaccard : ℚ)
    (seeds : List StoredFingerprint) (c : StoredFingerprint) (q : ℚ) : Prop :=
  ∃ seed ∈ seeds, Meets isTest fingerprintsForLanguage minJaccard seed c q

theorem search_done {seeds : List StoredFingerprint} {r : Option Best}
    (h : Search isTest fingerprintsForLanguage minJaccard ∅ seeds r) :
    ∃ best, r = some best ∧ best.Holds (Done isTest fingerprintsForLanguage minJaccard seeds) := by
  obtain ⟨best, hr, hholds⟩ := search_meets h Best.holds_empty
  refine ⟨best, hr, hholds.congr fun c q => ?_⟩
  rw [false_or, Done]

/-- Rows found by one seed where there was none before are labelled by a candidate of that seed. -/
theorem Best.Holds.label_new {best best' : Best} {M N : StoredFingerprint → ℚ → Prop} (h : best.Holds M)
    (h' : best'.Holds fun c q => M c q ∨ N c q) {pos : String × Nat} (hnone : best.lookup pos = none)
    {s : SimilarSymbol} (hs : best'.lookup pos = some s) :
    ∃ c q, N c q ∧ position c = pos ∧ label s = labelOf c := by
  obtain ⟨-, c, q, hM | hN, hpos, hname, hkind, hend⟩ := h'.row pos s hs
  · obtain ⟨old, hold⟩ := h.found c q hM
    rw [hpos, hnone] at hold
    cases hold
  · exact ⟨c, q, hN, hpos, by rw [label, labelOf, hname, hkind, hend]⟩

/-- Every row is labelled by a candidate of the first seed that reaches it. -/
def Labelled (isTest : String → Bool) (fingerprintsForLanguage : String → List StoredFingerprint) (minJaccard : ℚ)
    (best : Best) (done : List StoredFingerprint) : Prop :=
  ∀ pos s, best.lookup pos = some s →
    ∃ c, FirstAt isTest fingerprintsForLanguage minJaccard done pos c ∧ label s = labelOf c

theorem labelled_seed {best best' : Best} {done : List StoredFingerprint} {seed : StoredFingerprint}
    {tsig : Fingerprint} {order : List Nat} (hsig : asSig seed.fp = some tsig)
    (horder : Visits order (candidates (buildLanguageIndex isTest (fingerprintsForLanguage seed.language)) tsig))
    (hloop : order.foldlM (compare (buildLanguageIndex isTest (fingerprintsForLanguage seed.language)) seed tsig
      minJaccard) best = some best')
    (hholds : best.Holds (Done isTest fingerprintsForLanguage minJaccard done))
    (h : Labelled isTest fingerprintsForLanguage minJaccard best done) :
    best'.Holds (Done isTest fingerprintsForLanguage minJaccard (done ++ [seed])) ∧
      Labelled isTest fingerprintsForLanguage minJaccard best' (done ++ [seed]) := by
  obtain ⟨best₁, hloop₁, hholds₁⟩ := foldlM_compare hholds (visits_lt horder)
  rw [hloop] at hloop₁
  cases hloop₁
  have hmeets : best'.Holds fun c q => Done isTest fingerprintsForLanguage minJaccard done c q ∨
      Meets isTest fingerprintsForLanguage minJaccard seed c q :=
    hholds₁.congr fun c q => or_congr_right (compared_iff_meets hsig horder c q)
  constructor
  · refine hmeets.congr fun c q => ?_
    simp only [Done, List.mem_append, List.mem_singleton, or_and_right, exists_or, exists_eq_left]
  · intro pos s hs
    cases hold : best.lookup pos with
    | some old =>
      obtain ⟨s', hs', hlabel⟩ := foldlM_compare_label hloop hold
      rw [hs] at hs'
      cases hs'
      obtain ⟨c, hfirst, hc⟩ := h pos old hold
      exact ⟨c, hfirst.append [seed], hlabel.trans hc⟩
    | none =>
      obtain ⟨c, q, hmeet, hpos, hlabel⟩ := hholds.label_new hmeets hold hs
      refine ⟨c, ⟨done, seed, [], rfl, ?_, hpos, q, hmeet⟩, hlabel⟩
      intro s' hs' c' q' hpos' hmeet'
      obtain ⟨old, hfound⟩ := hholds.found c' q' ⟨s', hs', hmeet'⟩
      rw [hpos', hold] at hfound
      cases hfound

theorem Search.labelled {best : Best} {seeds : List StoredFingerprint} {r : Option Best}
    (h : Search isTest fingerprintsForLanguage minJaccard best seeds r) :
    ∀ {done : List StoredFingerprint}, best.Holds (Done isTest fingerprintsForLanguage minJaccard done) →
      Labelled isTest fingerprintsForLanguage minJaccard best done →
      ∀ best', r = some best' → Labelled isTest fingerprintsForLanguage minJaccard best' (done ++ seeds) := by
  induction h with
  | done =>
    intro done _ hlabelled best' hr
    cases hr
    simpa using hlabelled
  | @skip best seed seeds r hsig _ ih =>
    intro done hholds hlabelled best' hr
    have hnone : ∀ c q, ¬Meets isTest fingerprintsForLanguage minJaccard seed c q := by
      rintro c q ⟨⟨tsig, -, hseed, -⟩, -⟩
      rw [hsig] at hseed
      cases hseed
    have hholds' : best.Holds (Done isTest fingerprintsForLanguage minJaccard (done ++ [seed])) := by
      refine hholds.congr fun c q => ?_
      simp [Done, or_and_right, exists_or, hnone c q]
    have hlabelled' : Labelled isTest fingerprintsForLanguage minJaccard best (done ++ [seed]) := by
      intro pos s hs
      obtain ⟨c, hfirst, hc⟩ := hlabelled pos s hs
      exact ⟨c, hfirst.append [seed], hc⟩
    have := ih hholds' hlabelled' best' hr
    rwa [List.append_assoc, List.singleton_append] at this
  | @seed best seed seeds tsig order best₁ r hsig horder hloop _ ih =>
    intro done hholds hlabelled best' hr
    obtain ⟨hholds', hlabelled'⟩ := labelled_seed hsig horder hloop hholds hlabelled
    have := ih hholds' hlabelled' best' hr
    rwa [List.append_assoc, List.singleton_append] at this
  | panic _ _ _ =>
    intro done _ _ best' hr
    cases hr

theorem Search.append {best best' : Best} {seeds more : List StoredFingerprint} {r r' : Option Best}
    (h : Search isTest fingerprintsForLanguage minJaccard best seeds r) (hr : r = some best')
    (h' : Search isTest fingerprintsForLanguage minJaccard best' more r') :
    Search isTest fingerprintsForLanguage minJaccard best (seeds ++ more) r' := by
  induction h with
  | done =>
    cases hr
    exact h'
  | skip hsig _ ih => exact .skip hsig (ih hr)
  | seed hsig horder hloop _ ih => exact .seed hsig horder hloop (ih hr)
  | panic _ _ _ => cases hr

/-- Any candidate of the first seed that reaches a position can be the one that names it: a run may visit
it first. -/
theorem exists_search_labelled {seeds : List StoredFingerprint} {pos : String × Nat} {c : StoredFingerprint}
    (h : FirstAt isTest fingerprintsForLanguage minJaccard seeds pos c) :
    ∃ best s, Search isTest fingerprintsForLanguage minJaccard ∅ seeds (some best) ∧
      best.lookup pos = some s ∧ label s = labelOf c := by
  obtain ⟨earlier, seed, later, rfl, hnone, hpos, q, hmeet⟩ := h
  obtain ⟨r₁, hsearch₁⟩ := @search_exists isTest fingerprintsForLanguage minJaccard earlier ∅
  obtain ⟨best₁, rfl, hholds₁⟩ := search_done hsearch₁
  have hlookup₁ : best₁.lookup pos = none := by
    cases hs : best₁.lookup pos with
    | none => rfl
    | some s =>
      obtain ⟨-, c', q', ⟨s', hs', hmeet'⟩, hpos', -⟩ := hholds₁.row pos s hs
      exact absurd hmeet' (hnone s' hs' c' q' hpos')
  -- the row of `c` goes first
  obtain ⟨tsig, hsig⟩ : ∃ tsig, asSig seed.fp = some tsig := by
    obtain ⟨⟨tsig, -, hsig, -⟩, -⟩ := hmeet
    exact ⟨tsig, hsig⟩
  let index := buildLanguageIndex isTest (fingerprintsForLanguage seed.language)
  have hdedup : Visits (candidates index tsig).dedup (candidates index tsig) :=
    ⟨List.nodup_dedup _, fun i => List.mem_dedup⟩
  obtain ⟨ci, hci, csig, hrow, hcompared⟩ := (compared_iff_meets hsig hdedup c q).mpr hmeet
  have hvisits : Visits (ci :: (candidates index tsig).dedup.erase ci) (candidates index tsig) := by
    have hperm := List.perm_cons_erase hci
    exact ⟨hperm.nodup_iff.mp hdedup.1, fun i => (hperm.mem_iff.symm).trans (hdedup.2 i)⟩
  have hlt := visits_lt hvisits
  obtain ⟨best₂, hcompare, hholds₂⟩ := compare_holds seed tsig minJaccard hholds₁ (hlt ci List.mem_cons_self)
  obtain ⟨s₂, hs₂⟩ : ∃ s, best₂.lookup pos = some s := by
    obtain ⟨s, hs⟩ := hholds₂.found c q (.inr ⟨ci, List.mem_singleton_self _, csig, hrow, hcompared⟩)
    exact ⟨s, hpos ▸ hs⟩
  obtain ⟨c', q', ⟨ci', hci', csig', hrow', -⟩, -, hlabel₂⟩ := hholds₁.label_new hholds₂ hlookup₁ hs₂
  rw [List.mem_singleton.mp hci', show index.rows[ci]? = some c from hrow] at hrow'
  cases hrow'
  obtain ⟨best₃, hloop, hholds₃⟩ := foldlM_compare hholds₂ fun i hi => hlt i (List.mem_cons_of_mem _ hi)
  obtain ⟨s₃, hs₃, hlabel₃⟩ := foldlM_compare_label hloop hs₂
  obtain ⟨r₄, hsearch₄⟩ := @search_exists isTest fingerprintsForLanguage minJaccard later best₃
  obtain ⟨best₄, rfl, -⟩ := search_meets hsearch₄ hholds₃
  obtain ⟨s₄, hs₄, hlabel₄⟩ := hsearch₄.keeps_label rfl hs₃
  refine ⟨best₄, s₄, hsearch₁.append rfl (.seed hsig hvisits ?_ hsearch₄), hs₄,
    hlabel₄.trans (hlabel₃.trans hlabel₂)⟩
  rw [List.foldlM_cons, hcompare]
  exact hloop

end Labels

section Answers

variable {isTest : String → Bool} {fingerprintsForLanguage : String → List StoredFingerprint} {minJaccard : ℚ}

/-- `a` is a position of the answer before truncation, with its best score. -/
def Scored (isTest : String → Bool) (fingerprintsForLanguage : String → List StoredFingerprint) (minJaccard : ℚ)
    (seeds : List StoredFingerprint) (a : Ranked) : Prop :=
  IsGreatest {q | ∃ c, Done isTest fingerprintsForLanguage minJaccard seeds c q ∧ position c = a.1} a.2

/-- Fewer than `limit` positions stand above `pos`. -/
def Shown (isTest : String → Bool) (fingerprintsForLanguage : String → List StoredFingerprint) (minJaccard : ℚ)
    (seeds : List StoredFingerprint) (limit : Nat) (pos : String × Nat) : Prop :=
  ∃ q, Scored isTest fingerprintsForLanguage minJaccard seeds (pos, q) ∧
    ∀ ps : List Ranked, ps.Nodup →
      (∀ p ∈ ps, Scored isTest fingerprintsForLanguage minJaccard seeds p ∧ Ahead p (pos, q)) → ps.length < limit

/-- One possible answer before truncation: the rows of the table, strictly sorted. -/
structure Sorted (isTest : String → Bool) (fingerprintsForLanguage : String → List StoredFingerprint)
    (minJaccard : ℚ) (seeds : List StoredFingerprint) (best : Best) (out : List SimilarSymbol) : Prop where
  position : ∀ pos s, best.lookup pos = some s → (s.filePath, s.lineStart) = pos
  rows : ∀ s, s ∈ out ↔ ∃ pos, best.lookup pos = some s
  sorted : (out.map ranked).Pairwise Ahead
  scored : ∀ a, a ∈ out.map ranked ↔ Scored isTest fingerprintsForLanguage minJaccard seeds a

theorem sorted_answer {seeds : List StoredFingerprint} {best : Best}
    (hholds : best.Holds (Done isTest fingerprintsForLanguage minJaccard seeds)) {values : List SimilarSymbol}
    (hvalues : values.Perm (best.entries.map Sigma.snd)) :
    Sorted isTest fingerprintsForLanguage minJaccard seeds best (values.mergeSort before) := by
  have hmem : ∀ s, s ∈ values.mergeSort before ↔ ∃ pos, best.lookup pos = some s := by
    intro s
    rw [← mem_sortedRows, sortedRows, List.mem_mergeSort, List.mem_mergeSort, hvalues.mem_iff]
  have hnodup : (values.map ranked).Nodup := by
    refine List.Nodup.of_map Prod.fst ?_
    rw [List.map_map, (hvalues.map _).nodup_iff,
      ← ((List.mergeSort_perm (best.entries.map Sigma.snd) before).map _).nodup_iff]
    exact nodup_sortedRows hholds
  refine ⟨fun pos s h => (hholds.row pos s h).1, hmem, pairwise_ahead hnodup, fun a => ?_⟩
  constructor
  · intro ha
    obtain ⟨s, hs, rfl⟩ := List.mem_map.mp ha
    obtain ⟨pos, hlookup⟩ := (hmem s).mp hs
    have hgreatest := hholds.greatest pos s hlookup
    rwa [← (hholds.row pos s hlookup).1] at hgreatest
  · intro hscored
    obtain ⟨c, hdone, hpos⟩ := hscored.1
    obtain ⟨s, hlookup⟩ := hholds.found c _ hdone
    refine List.mem_map.mpr ⟨s, (hmem s).mpr ⟨_, hlookup⟩, ?_⟩
    have hat := (hholds.row _ s hlookup).1.trans hpos
    have hgreatest := hholds.greatest _ s hlookup
    rw [hpos] at hgreatest
    exact Prod.ext hat (hgreatest.unique hscored)

theorem Sorted.lookup {seeds : List StoredFingerprint} {best : Best} {out : List SimilarSymbol}
    (h : Sorted isTest fingerprintsForLanguage minJaccard seeds best out) {s : SimilarSymbol} (hs : s ∈ out) :
    best.lookup (s.filePath, s.lineStart) = some s := by
  obtain ⟨pos, hlookup⟩ := (h.rows s).mp hs
  rwa [h.position pos s hlookup]

/-- Rows of one table at one position are one row. -/
theorem Sorted.row_unique {seeds : List StoredFingerprint} {best : Best} {out : List SimilarSymbol}
    (h : Sorted isTest fingerprintsForLanguage minJaccard seeds best out) {s s' : SimilarSymbol} (hs : s ∈ out)
    (hs' : s' ∈ out) (heq : (ranked s).1 = (ranked s').1) : s = s' := by
  have hlookup := h.lookup hs
  have hlookup' := h.lookup hs'
  simp only [ranked] at heq
  rw [heq, hlookup'] at hlookup
  exact (Option.some.inj hlookup).symm

/-- The truncated answer keeps the rows of the positions shown. -/
theorem Sorted.mem_take {seeds : List StoredFingerprint} {best : Best} {out : List SimilarSymbol}
    (h : Sorted isTest fingerprintsForLanguage minJaccard seeds best out) {s : SimilarSymbol} (hs : s ∈ out)
    (limit : Nat) : s ∈ out.take limit ↔
      Shown isTest fingerprintsForLanguage minJaccard seeds limit (s.filePath, s.lineStart) := by
  have hranked : ranked s ∈ out.map ranked := List.mem_map_of_mem hs
  have hscored := (h.scored _).mp hranked
  have hiff := mem_take_iff h.sorted hranked limit
  simp only [h.scored] at hiff
  constructor
  · intro htake
    refine ⟨s.jaccard, hscored, hiff.mp ?_⟩
    rw [← List.map_take]
    exact List.mem_map_of_mem htake
  · rintro ⟨q, hq, hfew⟩
    obtain rfl : s.jaccard = q := IsGreatest.unique hscored hq
    have htake := hiff.mpr hfew
    rw [← List.map_take] at htake
    obtain ⟨s', hs', heq⟩ := List.mem_map.mp htake
    have hsame := h.row_unique (List.mem_of_mem_take hs') hs (congrArg Prod.fst heq)
    exact hsame ▸ hs'

theorem eq_of_map_eq {α β : Type} {f : α → β} : ∀ {l₁ l₂ : List α}, l₁.map f = l₂.map f →
    (∀ a ∈ l₁, ∀ b ∈ l₂, f a = f b → a = b) → l₁ = l₂ := by
  intro l₁
  induction l₁ with
  | nil =>
    intro l₂ hmap _
    exact (List.map_eq_nil_iff.mp hmap.symm).symm
  | cons a l₁ ih =>
    intro l₂ hmap hinj
    obtain ⟨b, l₂, rfl, hab, hmap⟩ := List.map_eq_cons_iff.mp hmap.symm
    have hhead := hinj a List.mem_cons_self b List.mem_cons_self hab.symm
    have htail := ih hmap.symm fun x hx y hy => hinj x (List.mem_cons_of_mem _ hx) y (List.mem_cons_of_mem _ hy)
    rw [hhead, htail]

theorem eq_of_ranked_of_label {s s' : SimilarSymbol} (hranked : ranked s = ranked s') (hlabel : label s = label s') :
    s = s' := by
  cases s
  cases s'
  simp only [ranked, label, Prod.mk.injEq] at hranked hlabel
  simp [hranked, hlabel]

/-- Two tables labelled from candidates that agree at the positions shown give one answer. -/
theorem take_eq_of_agree {seeds : List StoredFingerprint} {limit : Nat} {best₁ best₂ : Best}
    {out₁ out₂ : List SimilarSymbol} (h₁ : Sorted isTest fingerprintsForLanguage minJaccard seeds best₁ out₁)
    (h₂ : Sorted isTest fingerprintsForLanguage minJaccard seeds best₂ out₂)
    (hlabel₁ : Labelled isTest fingerprintsForLanguage minJaccard best₁ seeds)
    (hlabel₂ : Labelled isTest fingerprintsForLanguage minJaccard best₂ seeds)
    (hagree : ∀ pos, Shown isTest fingerprintsForLanguage minJaccard seeds limit pos → ∀ c c',
      FirstAt isTest fingerprintsForLanguage minJaccard seeds pos c →
      FirstAt isTest fingerprintsForLanguage minJaccard seeds pos c' → labelOf c = labelOf c') :
    out₁.take limit = out₂.take limit := by
  have hmap : out₁.map ranked = out₂.map ranked :=
    ranking_unique h₁.sorted h₂.sorted fun a => (h₁.scored a).trans (h₂.scored a).symm
  refine eq_of_map_eq (by rw [List.map_take, List.map_take, hmap]) ?_
  intro s hs s' hs' hranked
  have hmem := List.mem_of_mem_take hs
  have hmem' := List.mem_of_mem_take hs'
  obtain ⟨c, hfirst, hc⟩ := hlabel₁ _ s (h₁.lookup hmem)
  obtain ⟨c', hfirst', hc'⟩ := hlabel₂ _ s' (h₂.lookup hmem')
  have hpos : (s.filePath, s.lineStart) = (s'.filePath, s'.lineStart) := congrArg Prod.fst hranked
  rw [← hpos] at hfirst'
  have hshown := (h₁.mem_take hmem limit).mp hs
  exact eq_of_ranked_of_label hranked ((hc.trans (hagree _ hshown c c' hfirst hfirst')).trans hc'.symm)

end Answers

section Runs

variable (db : FingerprintIndex) (matched : List String) (trimmed : String) (minJaccard : Option ℚ) (limit : Nat)

/-- The candidates that may name a shown position all name it alike. -/
def Agreed : Prop :=
  ∀ pos, Shown db.isTest db.fingerprintsForLanguage (threshold minJaccard)
      (targets db.fingerprintsNamed matched trimmed) limit pos →
    ∀ c c', FirstAt db.isTest db.fingerprintsForLanguage (threshold minJaccard)
        (targets db.fingerprintsNamed matched trimmed) pos c →
      FirstAt db.isTest db.fingerprintsForLanguage (threshold minJaccard)
        (targets db.fingerprintsNamed matched trimmed) pos c' → labelOf c = labelOf c'

variable {db matched trimmed minJaccard limit}

theorem Returns.sorted {r : List SimilarSymbol} (h : Returns db matched trimmed minJaccard limit r) :
    ∃ best out, Sorted db.isTest db.fingerprintsForLanguage (threshold minJaccard)
        (targets db.fingerprintsNamed matched trimmed) best out ∧
      Labelled db.isTest db.fingerprintsForLanguage (threshold minJaccard) best
        (targets db.fingerprintsNamed matched trimmed) ∧ r = out.take limit := by
  obtain ⟨best, values, hsearch, hvalues, hr⟩ := h
  obtain ⟨best', hsome, hholds⟩ := search_done hsearch
  cases hsome
  refine ⟨best, _, sorted_answer hholds hvalues, ?_, hr⟩
  have hstart : Best.Holds ∅ (Done db.isTest db.fingerprintsForLanguage (threshold minJaccard) []) :=
    Best.holds_empty.congr fun c q => by simp [Done]
  have hlabelled := hsearch.labelled hstart (fun pos s hs => by cases hs) best rfl
  rwa [List.nil_append] at hlabelled

/-- A candidate that may name a shown position names it in some run. -/
theorem exists_returns_labelled {pos : String × Nat} {c : StoredFingerprint}
    (hshown : Shown db.isTest db.fingerprintsForLanguage (threshold minJaccard)
      (targets db.fingerprintsNamed matched trimmed) limit pos)
    (hfirst : FirstAt db.isTest db.fingerprintsForLanguage (threshold minJaccard)
      (targets db.fingerprintsNamed matched trimmed) pos c) :
    ∃ r, Returns db matched trimmed minJaccard limit r ∧
      ∃ s ∈ r, (s.filePath, s.lineStart) = pos ∧ label s = labelOf c := by
  obtain ⟨best, s, hsearch, hlookup, hlabel⟩ := exists_search_labelled hfirst
  obtain ⟨best', hsome, hholds⟩ := search_done hsearch
  cases hsome
  have hsorted := sorted_answer hholds (List.Perm.refl _)
  have hpos := hsorted.position pos s hlookup
  refine ⟨_, ⟨best, _, hsearch, List.Perm.refl _, rfl⟩, s, ?_, hpos, hlabel⟩
  rw [hsorted.mem_take ((hsorted.rows s).mpr ⟨pos, hlookup⟩) limit, hpos]
  exact hshown

variable (db matched trimmed minJaccard limit)

/-- The search answers, and every run gives one answer exactly when the candidates that may name a shown
position agree on its name, kind and last line. -/
theorem find_similar_order_free_iff :
    (∃ r, Returns db matched trimmed minJaccard limit r) ∧
    ((∀ r₁ r₂, Returns db matched trimmed minJaccard limit r₁ → Returns db matched trimmed minJaccard limit r₂ →
      r₁ = r₂) ↔ Agreed db matched trimmed minJaccard limit) := by
  refine ⟨?_, ?_, ?_⟩
  · obtain ⟨r, hsearch⟩ := @search_exists db.isTest db.fingerprintsForLanguage (threshold minJaccard)
      (targets db.fingerprintsNamed matched trimmed) ∅
    obtain ⟨best, rfl, -⟩ := search_done hsearch
    exact ⟨_, best, _, hsearch, List.Perm.refl _, rfl⟩
  · intro hsame pos hshown c c' hfirst hfirst'
    obtain ⟨r, hr, s, hs, hpos, hlabel⟩ := exists_returns_labelled hshown hfirst
    obtain ⟨r', hr', s', hs', hpos', hlabel'⟩ := exists_returns_labelled hshown hfirst'
    rw [hsame r' r hr' hr] at hs'
    obtain ⟨best, out, hsorted, -, rfl⟩ := hr.sorted
    have hrow := hsorted.row_unique (List.mem_of_mem_take hs) (List.mem_of_mem_take hs') (hpos.trans hpos'.symm)
    rw [← hlabel, ← hlabel', hrow]
  · intro hagree r₁ r₂ hr₁ hr₂
    obtain ⟨best₁, out₁, hsorted₁, hlabelled₁, rfl⟩ := hr₁.sorted
    obtain ⟨best₂, out₂, hsorted₂, hlabelled₂, rfl⟩ := hr₂.sorted
    exact take_eq_of_agree hsorted₁ hsorted₂ hlabelled₁ hlabelled₂ hagree

end Runs

section SameLine

/-- A second copy that starts on the line of the first. -/
def twin : StoredFingerprint := { copy with name := "h" }

def sameLine : FingerprintIndex where
  isTest := fun _ => false
  fingerprintsForLanguage := fun _ => [original, copy, twin]
  fingerprintsNamed := fun name => if name = "f" then [original] else []

theorem targets_sameLine : targets sameLine.fingerprintsNamed ["f"] "f" = [original] := by
  have hnames : names ["f"] "f" = ["f"] := by
    rw [names, List.mergeSort_singleton]
    rfl
  have hsig : (asSig original.fp).isSome = true := rfl
  have hrows : ((["f"].flatMap sameLine.fingerprintsNamed).filter fun seed => (asSig seed.fp).isSome) =
      [original] := by
    simp [sameLine, hsig]
  rw [targets, hnames, hrows, List.mergeSort_singleton]
  rfl

theorem meets_sameLine {c : StoredFingerprint} (hc : c ∈ [copy, twin]) :
    Meets sameLine.isTest sameLine.fingerprintsForLanguage (threshold (some (9 / 10))) original c 1 := by
  obtain ⟨sig, hsig⟩ : ∃ sig, asSig (List.replicate 64 7) = some sig := ⟨_, rfl⟩
  have hfp : c.fp = List.replicate 64 7 ∧ c.filePath = "b.rs" := by
    simp only [List.mem_cons, List.not_mem_nil, or_false] at hc
    rcases hc with rfl | rfl
    · exact ⟨rfl, rfl⟩
    · exact ⟨rfl, rfl⟩
  have hshared : ∃ key, key ∈ bandKeys sig ∧ key ∈ bandKeys sig :=
    exists_shared_bandKey (by rw [agree_self]; decide)
  refine ⟨⟨sig, sig, hsig, hfp.1 ▸ hsig, List.mem_cons_of_mem _ hc, rfl, ?_, (jaccard_self sig).symm, ?_⟩,
    sig, sig, hsig, hfp.1 ▸ hsig, hshared⟩
  · simp [hfp.2, original]
  · norm_num [threshold]

theorem firstAt_sameLine {c : StoredFingerprint} (hc : c ∈ [copy, twin]) :
    FirstAt sameLine.isTest sameLine.fingerprintsForLanguage (threshold (some (9 / 10)))
      (targets sameLine.fingerprintsNamed ["f"] "f") ("b.rs", 3) c := by
  rw [targets_sameLine]
  refine ⟨[], original, [], rfl, fun s hs => absurd hs List.not_mem_nil, ?_, 1, meets_sameLine hc⟩
  simp only [List.mem_cons, List.not_mem_nil, or_false] at hc
  rcases hc with rfl | rfl
  · rfl
  · rfl

theorem shown_sameLine :
    Shown sameLine.isTest sameLine.fingerprintsForLanguage (threshold (some (9 / 10)))
      (targets sameLine.fingerprintsNamed ["f"] "f") 10 ("b.rs", 3) := by
  rw [targets_sameLine]
  have hdone : Done sameLine.isTest sameLine.fingerprintsForLanguage (threshold (some (9 / 10))) [original] copy 1 :=
    ⟨original, List.mem_singleton_self _, meets_sameLine List.mem_cons_self⟩
  have hbound : ∀ c q, Done sameLine.isTest sameLine.fingerprintsForLanguage (threshold (some (9 / 10))) [original] c
      q → q ≤ 1 ∧ position c = ("b.rs", 3) := by
    rintro c q ⟨seed, hseed, ⟨tsig, csig, -, -, hmem, -, hown, rfl, -⟩, -⟩
    rw [List.mem_singleton.mp hseed] at hown
    refine ⟨jaccard_le_one tsig csig, ?_⟩
    simp only [sameLine, List.mem_cons, List.not_mem_nil, or_false] at hmem
    rcases hmem with rfl | rfl | rfl
    · exact absurd ⟨rfl, rfl⟩ hown
    · rfl
    · rfl
  refine ⟨1, ⟨⟨copy, hdone, rfl⟩, ?_⟩, ?_⟩
  · rintro q ⟨c, hc, -⟩
    exact (hbound c q hc).1
  · intro ps _ hps
    have hnil : ps = [] := by
      refine List.eq_nil_iff_forall_not_mem.mpr fun p hp => ?_
      obtain ⟨⟨⟨c, hc, hpos⟩, -⟩, hahead⟩ := hps p hp
      obtain ⟨hle, hat⟩ := hbound c _ hc
      rcases hahead with hlt | ⟨hscore, hrest⟩
      · exact absurd hle (not_le.mpr hlt)
      · have hself : p = (("b.rs", 3), (1 : ℚ)) := Prod.ext (hpos.symm.trans hat) hscore
        have hahead : Ahead p (("b.rs", 3), 1) := .inr ⟨hscore, hrest⟩
        rw [hself] at hahead
        exact Ahead.irrefl _ hahead
    rw [hnil]
    decide

/-- Two runs over one index name the same row `g` and `h`. -/
theorem same_line_rows_by_order : ∃ r₁ r₂, Returns sameLine ["f"] "f" (some (9 / 10)) 10 r₁ ∧
    Returns sameLine ["f"] "f" (some (9 / 10)) 10 r₂ ∧
    (∃ s ∈ r₁, s.filePath = "b.rs" ∧ s.lineStart = 3 ∧ s.name = "g") ∧
    (∃ s ∈ r₂, s.filePath = "b.rs" ∧ s.lineStart = 3 ∧ s.name = "h") ∧ r₁ ≠ r₂ := by
  obtain ⟨r₁, hr₁, s₁, hs₁, hpos₁, hlabel₁⟩ :=
    exists_returns_labelled shown_sameLine (firstAt_sameLine (c := copy) List.mem_cons_self)
  obtain ⟨r₂, hr₂, s₂, hs₂, hpos₂, hlabel₂⟩ :=
    exists_returns_labelled shown_sameLine (firstAt_sameLine (c := twin) (List.mem_cons_of_mem _ List.mem_cons_self))
  have hname₁ : s₁.name = "g" := congrArg Prod.fst hlabel₁
  have hname₂ : s₂.name = "h" := congrArg Prod.fst hlabel₂
  refine ⟨r₁, r₂, hr₁, hr₂, ⟨s₁, hs₁, congrArg Prod.fst hpos₁, congrArg Prod.snd hpos₁, hname₁⟩,
    ⟨s₂, hs₂, congrArg Prod.fst hpos₂, congrArg Prod.snd hpos₂, hname₂⟩, ?_⟩
  rintro rfl
  obtain ⟨best, out, hsorted, -, rfl⟩ := hr₁.sorted
  have hrow := hsorted.row_unique (List.mem_of_mem_take hs₁) (List.mem_of_mem_take hs₂) (hpos₁.trans hpos₂.symm)
  rw [hrow, hname₂] at hname₁
  exact absurd hname₁ (by decide)

end SameLine

end Similar
end Graph
end CodeSage
