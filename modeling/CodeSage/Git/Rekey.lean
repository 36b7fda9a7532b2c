import CodeSage.Git.Compose

/-!
# CodeSage.Git.Rekey

Moving stored rows along renames. When the moves keep the recorded paths apart and on their side of the
test-like boundary, the moved tables hold the content of the same commits under their new paths
(`rekey_holds`). `rekeyDivergesFromFullScan` rules out the other moves (`moves_apart`).
-/

namespace CodeSage
namespace Git

open Lib

variable {policy : Policy} {S : String → String}

/-- A commit after the moves. -/
def Keyed.rekey (S : String → String) (k : Keyed) : Keyed := { k with paths := k.paths.map S }

/-- The paths with stored rows. -/
def Recorded (ks : List Keyed) (path : String) : Prop := ∃ k ∈ ks, path ∈ k.paths

/-- The moves keep the recorded paths apart. -/
def Apart (S : String → String) (ks : List Keyed) : Prop :=
  ∀ p q, Recorded ks p → Recorded ks q → S p = S q → p = q

section Content

variable {ks : List Keyed}

theorem summarize_eq_some {ν : Type} {f : List Keyed → ν} {v : ν} {ks : List Keyed} :
    summarize f ks = some v ↔ ks ≠ [] ∧ f ks = v := by
  unfold summarize
  split <;> simp_all

theorem recorded_of_fileContent {path : String} {row : GitFileRow} (h : fileContent ks path = some row) :
    Recorded ks path := by
  obtain ⟨k, hk⟩ := List.exists_mem_of_ne_nil _ (summarize_eq_some.mp h).1
  obtain ⟨hmem, hpath⟩ := List.mem_filter.mp hk
  exact ⟨k, hmem, of_decide_eq_true hpath⟩

theorem fileContent_of_recorded {path : String} (h : Recorded ks path) : ∃ row, fileContent ks path = some row := by
  obtain ⟨k, hk, hpath⟩ := h
  have hmem : k ∈ touching ks path := List.mem_filter.mpr ⟨hk, decide_eq_true hpath⟩
  exact ⟨_, summarize_eq_some.mpr ⟨List.ne_nil_of_mem hmem, rfl⟩⟩

theorem mem_rekey_paths (hS : Apart S ks) {k : Keyed} (hk : k ∈ ks) {p : String} (hp : Recorded ks p) :
    S p ∈ (k.rekey S).paths ↔ p ∈ k.paths := by
  constructor
  · intro h
    obtain ⟨q, hq, heq⟩ := List.mem_map.mp h
    rw [← hS q p ⟨k, hk, hq⟩ hp heq]
    exact hq
  · exact fun h => List.mem_map_of_mem h

theorem touching_rekey (hS : Apart S ks) {p : String} (hp : Recorded ks p) :
    touching (ks.map (Keyed.rekey S)) (S p) = (touching ks p).map (Keyed.rekey S) := by
  rw [touching, List.filter_map, touching]
  refine congrArg _ (List.filter_congr fun k hk => ?_)
  exact decide_eq_decide.mpr (mem_rekey_paths hS hk hp)

theorem timestamps_rekey (ks : List Keyed) : timestamps (ks.map (Keyed.rekey S)) = timestamps ks := by
  rw [timestamps, List.map_map]
  rfl

theorem fileStatsOf_rekey (ks : List Keyed) : fileStatsOf (ks.map (Keyed.rekey S)) = fileStatsOf ks := by
  rw [fileStatsOf, List.countP_map, List.length_map, timestamps_rekey]
  rfl

theorem pairStatsOf_rekey (ks : List Keyed) : pairStatsOf (ks.map (Keyed.rekey S)) = pairStatsOf ks := by
  rw [pairStatsOf, List.length_map, maskOf, timestamps_rekey]
  rfl

theorem fileContent_rekey (hS : Apart S ks) (q : String) (row : GitFileRow) :
    fileContent (ks.map (Keyed.rekey S)) q = some row ↔ ∃ p, fileContent ks p = some row ∧ S p = q := by
  constructor
  · intro h
    obtain ⟨k', hk', hq⟩ := recorded_of_fileContent h
    obtain ⟨k, hk, rfl⟩ := List.mem_map.mp hk'
    obtain ⟨p, hp, rfl⟩ := List.mem_map.mp hq
    refine ⟨p, ?_, rfl⟩
    rw [fileContent, touching_rekey hS ⟨k, hk, hp⟩] at h
    obtain ⟨hne, hrow⟩ := summarize_eq_some.mp h
    rw [fileStatsOf_rekey] at hrow
    exact summarize_eq_some.mpr ⟨fun hnil => hne (by rw [hnil]; rfl), hrow⟩
  · rintro ⟨p, h, rfl⟩
    have hp := recorded_of_fileContent h
    obtain ⟨hne, hrow⟩ := summarize_eq_some.mp h
    rw [fileContent, touching_rekey hS hp]
    refine summarize_eq_some.mpr ⟨fun hnil => hne (List.map_eq_nil_iff.mp hnil), ?_⟩
    rwa [fileStatsOf_rekey]

/-- Where the two paths of a pair go. -/
def rekeyPair (S : String → String) (pair : String × String) : String × String := ordered (S pair.1, S pair.2)

theorem nodup_rekey (hS : Apart S ks) (hd : Distinct ks) {k : Keyed} (hk : k ∈ ks) : (k.rekey S).paths.Nodup :=
  (hd k hk).map_on fun p hp q hq heq => hS p q ⟨k, hk, hp⟩ ⟨k, hk, hq⟩ heq

theorem recorded_of_pairContent {pair : String × String} {stats : PairStats} (hd : Distinct ks)
    (h : pairContent policy ks pair = some stats) :
    Recorded ks pair.1 ∧ Recorded ks pair.2 ∧ textLt pair.1 pair.2 := by
  obtain ⟨k, hk, hadm⟩ := exists_of_pairContent h
  obtain ⟨-, ha, hb, hlt, -⟩ := (mem_admittedPairs (hd k hk)).mp hadm
  exact ⟨⟨k, hk, ha⟩, ⟨k, hk, hb⟩, hlt⟩

/-- A commit counts for the moved pair where it counted for the pair. -/
theorem mem_admittedPairs_rekey (hS : Apart S ks) (hd : Distinct ks)
    (htest : ∀ p, Recorded ks p → policy.testLike (S p) = policy.testLike p) {k : Keyed} (hk : k ∈ ks)
    {a b : String} (ha : Recorded ks a) (hb : Recorded ks b) (hlt : textLt a b) :
    rekeyPair S (a, b) ∈ admittedPairs policy (k.rekey S).paths ↔ (a, b) ∈ admittedPairs policy k.paths := by
  have hne : S a ≠ S b := fun heq => textLt_ne hlt (hS a b ha hb heq)
  have hlen : (k.rekey S).paths.length = k.paths.length := List.length_map S
  have hall : textLt (rekeyPair S (a, b)).1 (rekeyPair S (a, b)).2 := ordered_lt hne
  have hpair : rekeyPair S (a, b) = (S a, S b) ∨ rekeyPair S (a, b) = (S b, S a) := by
    unfold rekeyPair ordered
    split
    · exact .inl rfl
    · exact .inr rfl
  rw [mem_admittedPairs (hd k hk)]
  rcases hpair with hpair | hpair
  · rw [hpair] at hall ⊢
    rw [mem_admittedPairs (nodup_rekey hS hd hk), hlen, mem_rekey_paths hS hk ha, mem_rekey_paths hS hk hb,
      htest a ha, htest b hb]
    simp only [hall, hlt]
  · rw [hpair] at hall ⊢
    rw [mem_admittedPairs (nodup_rekey hS hd hk), hlen, mem_rekey_paths hS hk ha, mem_rekey_paths hS hk hb,
      htest a ha, htest b hb]
    simp only [hall, hlt, true_and]
    rw [and_left_comm (a := b ∈ k.paths), and_comm (a := policy.testLike b = true)]

theorem sharing_rekey (hS : Apart S ks) (hd : Distinct ks)
    (htest : ∀ p, Recorded ks p → policy.testLike (S p) = policy.testLike p) {a b : String} (ha : Recorded ks a)
    (hb : Recorded ks b) (hlt : textLt a b) :
    sharing policy (ks.map (Keyed.rekey S)) (rekeyPair S (a, b)) =
      (sharing policy ks (a, b)).map (Keyed.rekey S) := by
  rw [sharing, List.filter_map, sharing]
  refine congrArg _ (List.filter_congr fun k hk => ?_)
  exact decide_eq_decide.mpr (mem_admittedPairs_rekey hS hd htest hk ha hb hlt)

theorem rekeyPair_ordered {a b : String} (hlt : textLt (S a) (S b)) : rekeyPair S (ordered (a, b)) = (S a, S b) := by
  have hof := ordered_of_lt hlt
  unfold rekeyPair
  have hcases : ordered (a, b) = (a, b) ∨ ordered (a, b) = (b, a) := by
    unfold ordered
    split
    · exact .inl rfl
    · exact .inr rfl
  rcases hcases with h | h
  · rw [h]
    exact hof.1
  · rw [h]
    exact hof.2

theorem pairContent_rekey (hS : Apart S ks) (hd : Distinct ks)
    (htest : ∀ p, Recorded ks p → policy.testLike (S p) = policy.testLike p) (q : String × String)
    (stats : PairStats) :
    pairContent policy (ks.map (Keyed.rekey S)) q = some stats ↔
      ∃ pair, pairContent policy ks pair = some stats ∧ rekeyPair S pair = q := by
  constructor
  · intro h
    obtain ⟨k', hk', hadm⟩ := exists_of_pairContent h
    obtain ⟨k, hk, rfl⟩ := List.mem_map.mp hk'
    obtain ⟨-, hx, hy, hlt, -⟩ := (mem_admittedPairs (nodup_rekey hS hd hk)).mp hadm
    obtain ⟨a, ha, hSa⟩ := List.mem_map.mp hx
    obtain ⟨b, hb, hSb⟩ := List.mem_map.mp hy
    obtain ⟨x, y⟩ := q
    subst hSa hSb
    have hne : a ≠ b := by
      rintro rfl
      exact textLt_ne hlt rfl
    have hord : textLt (ordered (a, b)).1 (ordered (a, b)).2 := ordered_lt hne
    have hrec : Recorded ks (ordered (a, b)).1 ∧ Recorded ks (ordered (a, b)).2 := by
      unfold ordered
      split
      · exact ⟨⟨k, hk, ha⟩, ⟨k, hk, hb⟩⟩
      · exact ⟨⟨k, hk, hb⟩, ⟨k, hk, ha⟩⟩
    refine ⟨ordered (a, b), ?_, rekeyPair_ordered hlt⟩
    rw [← rekeyPair_ordered hlt, pairContent, sharing_rekey hS hd htest hrec.1 hrec.2 hord] at h
    obtain ⟨hne', hrow⟩ := summarize_eq_some.mp h
    rw [pairStatsOf_rekey] at hrow
    exact summarize_eq_some.mpr ⟨fun hnil => hne' (by rw [hnil]; rfl), hrow⟩
  · rintro ⟨⟨a, b⟩, h, rfl⟩
    obtain ⟨ha, hb, hlt⟩ := recorded_of_pairContent hd h
    obtain ⟨hne, hrow⟩ := summarize_eq_some.mp h
    rw [pairContent, sharing_rekey hS hd htest ha hb hlt]
    refine summarize_eq_some.mpr ⟨fun hnil => hne (List.map_eq_nil_iff.mp hnil), ?_⟩
    rwa [pairStatsOf_rekey]

theorem eventContent_rekey (hsha : (ks.map Keyed.sha).Nodup) (q sha : String) (event : AuthorEvent) :
    eventContent (ks.map (Keyed.rekey S)) q sha = some event ↔
      ∃ p, eventContent ks p sha = some event ∧ S p = q := by
  have hsha' : ((ks.map (Keyed.rekey S)).map Keyed.sha).Nodup := by
    rwa [List.map_map]
  rw [eventContent_eq_some hsha']
  constructor
  · rintro ⟨k', hk', hkey, hq, hevent⟩
    obtain ⟨k, hk, rfl⟩ := List.mem_map.mp hk'
    obtain ⟨p, hp, rfl⟩ := List.mem_map.mp hq
    exact ⟨p, (eventContent_eq_some hsha).mpr ⟨k, hk, hkey, hp, hevent⟩, rfl⟩
  · rintro ⟨p, h, rfl⟩
    obtain ⟨k, hk, hkey, hp, hevent⟩ := (eventContent_eq_some hsha).mp h
    exact ⟨k.rekey S, List.mem_map_of_mem hk, hkey, List.mem_map_of_mem hp, hevent⟩

end Content

section Moved

variable {ks : List Keyed} {db : Database} {moves : List Move}

theorem isMoved_iff {path : String} : isMoved moves path = true ↔ path ∈ moves.map Prod.fst := by
  rw [isMoved, List.any_eq_true, List.mem_map]
  simp only [decide_eq_true_eq]

theorem moved_of_not_isMoved {path : String} (h : isMoved moves path = false) : moved moves path = some path := by
  have hnone : moves.find? (fun m => m.1 = path) = none := by
    rw [List.find?_eq_none]
    intro m hm heq
    rw [← Bool.not_eq_true] at h
    exact h (isMoved_iff.mpr (List.mem_map.mpr ⟨m, hm, of_decide_eq_true heq⟩))
  rw [moved, hnone]

theorem moved_of_mem (hkeys : (moves.map Prod.fst).Nodup) {m : Move} (hm : m ∈ moves) : moved moves m.1 = m.2 := by
  cases hfind : moves.find? fun m' => m'.1 = m.1 with
  | none =>
    have := List.find?_eq_none.mp hfind m hm
    simp at this
  | some m' =>
    have hkey : m'.1 = m.1 := by simpa using List.find?_some hfind
    have hsame : m' = m := List.inj_on_of_nodup_map hkeys (List.mem_of_find?_eq_some hfind) hm hkey
    rw [moved, hfind, hsame]

theorem mem_movedFileRows {path : String} {row : GitFileRow} :
    (path, row) ∈ movedFileRows db moves ↔ db.gitFiles.lookup path = some row ∧ isMoved moves path = true := by
  rw [movedFileRows, List.mem_filterMap, isMoved_iff, List.mem_map]
  constructor
  · rintro ⟨m, hm, hrow⟩
    obtain ⟨row', hlookup, heq⟩ := Option.map_eq_some_iff.mp hrow
    cases heq
    exact ⟨hlookup, m, hm, rfl⟩
  · rintro ⟨hlookup, m, hm, rfl⟩
    exact ⟨m, hm, by rw [hlookup]; rfl⟩

theorem nodup_movedFileRows (hkeys : (moves.map Prod.fst).Nodup) : ((movedFileRows db moves).map Prod.fst).Nodup := by
  refine hkeys.sublist ?_
  clear hkeys
  induction moves with
  | nil => exact List.Sublist.refl _
  | cons m moves ih =>
    rw [movedFileRows, List.filterMap_cons]
    cases db.gitFiles.lookup m.1 with
    | none => exact ih.cons _
    | some row => exact ih.cons_cons _

/-- Each pair row with a moved end is read once. -/
theorem foldl_movedPairRows : ∀ (moves : List Move) (seen : List ((String × String) × CoChangeRow)),
    (seen.map Prod.fst).Nodup → (∀ row ∈ seen, row ∈ db.gitCoChanges.rows) →
    let result := moves.foldl (fun seen m =>
      seen ++ (db.gitCoChanges.rows.filter fun row =>
        (row.1.1 = m.1 ∨ row.1.2 = m.1) ∧ row.1 ∉ seen.map Prod.fst)) seen
    (result.map Prod.fst).Nodup ∧ ∀ row, row ∈ result ↔ row ∈ seen ∨ row ∈ db.gitCoChanges.rows ∧
      (isMoved moves row.1.1 = true ∨ isMoved moves row.1.2 = true) := by
  intro moves
  induction moves with
  | nil =>
    intro seen hnodup _
    exact ⟨hnodup, fun row => by simp [isMoved]⟩
  | cons m moves ih =>
    intro seen hnodup hseen
    have hfilter : ∀ row, row ∈ db.gitCoChanges.rows.filter (fun row =>
        (row.1.1 = m.1 ∨ row.1.2 = m.1) ∧ row.1 ∉ seen.map Prod.fst) ↔
        row ∈ db.gitCoChanges.rows ∧ (row.1.1 = m.1 ∨ row.1.2 = m.1) ∧ row.1 ∉ seen.map Prod.fst := by
      intro row
      rw [List.mem_filter, decide_eq_true_eq]
    have hnodup' : ((seen ++ db.gitCoChanges.rows.filter fun row =>
        (row.1.1 = m.1 ∨ row.1.2 = m.1) ∧ row.1 ∉ seen.map Prod.fst).map Prod.fst).Nodup := by
      rw [List.map_append, List.nodup_append]
      refine ⟨hnodup, db.gitCoChanges.nodup_rows.sublist (List.filter_sublist.map _), ?_⟩
      rintro key hkey key' hkey' rfl
      obtain ⟨row, hrow, rfl⟩ := List.mem_map.mp hkey'
      exact ((hfilter row).mp hrow).2.2 hkey
    have hrows' : ∀ row ∈ seen ++ db.gitCoChanges.rows.filter (fun row =>
        (row.1.1 = m.1 ∨ row.1.2 = m.1) ∧ row.1 ∉ seen.map Prod.fst), row ∈ db.gitCoChanges.rows := by
      intro row hrow
      rcases List.mem_append.mp hrow with h | h
      · exact hseen row h
      · exact ((hfilter row).mp h).1
    obtain ⟨hnod, hmem⟩ := ih _ hnodup' hrows'
    refine ⟨hnod, fun row => (hmem row).trans ?_⟩
    rw [List.mem_append, hfilter, or_assoc]
    have hcons : ∀ path, isMoved (m :: moves) path = true ↔ path = m.1 ∨ isMoved moves path = true := by
      intro path
      rw [isMoved_iff, isMoved_iff, List.map_cons, List.mem_cons]
    rw [hcons, hcons]
    constructor
    · rintro (h | ⟨hrow, hm, -⟩ | ⟨hrow, hm⟩)
      · exact .inl h
      · exact .inr ⟨hrow, by tauto⟩
      · exact .inr ⟨hrow, by tauto⟩
    · rintro (h | ⟨hrow, hm⟩)
      · exact .inl h
      · by_cases hin : row.1 ∈ seen.map Prod.fst
        · -- a row already read under this key is this row
          obtain ⟨row', hrow', hkey⟩ := List.mem_map.mp hin
          have hsame := List.inj_on_of_nodup_map db.gitCoChanges.nodup_rows (hseen row' hrow') hrow hkey
          exact .inl (hsame ▸ hrow')
        · tauto

theorem movedPairRows_spec :
    ((movedPairRows db moves).map Prod.fst).Nodup ∧ ∀ pair row, (pair, row) ∈ movedPairRows db moves ↔
      db.gitCoChanges.lookup pair = some row ∧ (isMoved moves pair.1 || isMoved moves pair.2) = true := by
  obtain ⟨hnodup, hmem⟩ := foldl_movedPairRows moves [] List.nodup_nil (by simp)
  refine ⟨hnodup, fun pair row => (hmem (pair, row)).trans ?_⟩
  rw [Table.mem_rows, Bool.or_eq_true]
  simp

theorem ofStats_write (stats : PairStats) : mergedRow (CoChangeRow.ofStats stats).write none = CoChangeRow.ofStats stats :=
  rfl

theorem orderCoChangePair_of_ne {a b : String} (h : a ≠ b) : orderCoChangePair a b = some (ordered (a, b)) := by
  rw [orderCoChangePair, if_neg h, ordered]
  split <;> rfl

/-- The stored events of the moved paths. -/
def eventsToMove (db : Database) (moves : List Move) : List ((String × String) × AuthorEvent) :=
  moves.flatMap fun m => db.authorEvents.rows.filter fun e => e.1.1 = m.1

theorem mem_eventsToMove {key : String × String} {event : AuthorEvent} :
    (key, event) ∈ eventsToMove db moves ↔
      db.authorEvents.lookup key = some event ∧ isMoved moves key.1 = true := by
  rw [eventsToMove, List.mem_flatMap, isMoved_iff, List.mem_map, ← Table.mem_rows]
  simp only [List.mem_filter, decide_eq_true_eq]
  constructor
  · rintro ⟨m, hm, hrow, hkey⟩
    exact ⟨hrow, m, hm, hkey.symm⟩
  · rintro ⟨hrow, m, hm, hkey⟩
    exact ⟨m, hm, hrow, hkey.symm⟩

theorem nodup_eventsToMove (hkeys : (moves.map Prod.fst).Nodup) : ((eventsToMove db moves).map Prod.fst).Nodup := by
  rw [eventsToMove, List.map_flatMap, List.nodup_flatMap]
  refine ⟨fun m _ => db.authorEvents.nodup_rows.sublist (List.filter_sublist.map _), ?_⟩
  refine (List.pairwise_map.mp hkeys).imp fun {m m'} hne key hkey hkey' => ?_
  obtain ⟨e, he, rfl⟩ := List.mem_map.mp hkey
  obtain ⟨e', he', heq⟩ := List.mem_map.mp hkey'
  have h₁ := of_decide_eq_true (List.mem_filter.mp he).2
  have h₂ := of_decide_eq_true (List.mem_filter.mp he').2
  exact hne (h₁.symm.trans ((congrArg Prod.fst heq).symm.trans h₂))

/-- The paths with a `git_files` row. -/
def Stored (db : Database) (path : String) : Prop := ∃ row, db.gitFiles.lookup path = some row

/-- A pair row stands between two stored paths, in order, and its windows are those of its mask. -/
structure PairStored (db : Database) (pair : String × String) (row : CoChangeRow) : Prop where
  left : Stored db pair.1
  right : Stored db pair.2
  lt : textLt pair.1 pair.2
  windows : row.windows = windowsOf row.windowMask

def PairsStored (db : Database) : Prop := ∀ pair row, db.gitCoChanges.lookup pair = some row → PairStored db pair row

/-- The moves keep the stored paths apart. -/
def MovesApart (db : Database) (moves : List Move) : Prop :=
  ∀ p q t, Stored db p → Stored db q → moved moves p = some t → moved moves q = some t → p = q

/-- Where a pair row goes. -/
def movedPair (moves : List Move) (pair : String × String) : Option (String × String) :=
  match moved moves pair.1, moved moves pair.2 with
  | some a, some b => some (ordered (a, b))
  | _, _ => none

theorem movedPair_eq_some {pair q : String × String} :
    movedPair moves pair = some q ↔
      ∃ a b, moved moves pair.1 = some a ∧ moved moves pair.2 = some b ∧ ordered (a, b) = q := by
  unfold movedPair
  split
  · rename_i a b ha hb
    simp [ha, hb]
  · rename_i hnot
    constructor
    · intro h
      cases h
    · rintro ⟨a, b, ha, hb, -⟩
      exact absurd hb (hnot a b ha)

theorem foldl_moveFile (rows : List (String × GitFileRow)) (cleared : Database) :
    rows.foldl (moveFile moves) cleared =
      { cleared with
        gitFiles := Table.putAll fileRow cleared.gitFiles
          (rows.filterMap fun row => (moved moves row.1).map fun q => (q, row.2)) } := by
  induction rows generalizing cleared with
  | nil => rfl
  | cons row rows ih =>
    rw [List.foldl_cons, ih, List.filterMap_cons, moveFile]
    cases moved moves row.1 <;> rfl

/-- Pair rows whose ends do not meet are all written. -/
theorem foldlM_movePair {rows : List ((String × String) × CoChangeRow)}
    (hne : ∀ row ∈ rows, ∀ a b, moved moves row.1.1 = some a → moved moves row.1.2 = some b → a ≠ b)
    (filed : Database) :
    rows.foldlM (movePair moves) filed =
      some { filed with
        gitCoChanges := Table.putAll (fun row => mergedRow row.write) filed.gitCoChanges
          (rows.filterMap fun row => (movedPair moves row.1).map fun q => (q, row.2)) } := by
  induction rows generalizing filed with
  | nil => rfl
  | cons row rows ih =>
    have hrest := ih fun row hrow => hne row (List.mem_cons_of_mem _ hrow)
    have hrow := hne row List.mem_cons_self
    rw [List.foldlM_cons, List.filterMap_cons, movePair, movedPair]
    cases ha : moved moves row.1.1 with
    | none => exact hrest filed
    | some a =>
      cases hb : moved moves row.1.2 with
      | none => exact hrest filed
      | some b =>
        have hab := hrow a b ha hb
        simp only [if_pos hab, mergeGitCoChange, orderCoChangePair_of_ne hab]
        exact hrest _

section Store

variable (hkeys : (moves.map Prod.fst).Nodup) (hpairs : PairsStored db) (hapart : MovesApart db moves)

include hkeys hapart in
theorem rekeyed_files (q : String) (row : GitFileRow) :
    (Table.putAll fileRow (db.gitFiles.deleteWhere (isMoved moves))
      ((movedFileRows db moves).filterMap fun row => (moved moves row.1).map fun q => (q, row.2))).lookup q = some row ↔
      ∃ p, db.gitFiles.lookup p = some row ∧ moved moves p = some q := by
  refine Table.lookup_rekey (nodup_movedFileRows hkeys) (fun k v => mem_movedFileRows) ?_ ?_ (fun k v _ => rfl) q row
  · exact fun p p' v v' t hp hp' => hapart p p' t ⟨v, hp⟩ ⟨v', hp'⟩
  · exact fun p v _ hnot => moved_of_not_isMoved hnot

include hpairs hapart in
/-- Two pair rows land on one pair only if they are one. -/
theorem movedPair_apart {pair pair' q : String × String} {row row' : CoChangeRow}
    (hp : db.gitCoChanges.lookup pair = some row) (hp' : db.gitCoChanges.lookup pair' = some row')
    (hq : movedPair moves pair = some q) (hq' : movedPair moves pair' = some q) : pair = pair' := by
  have hrow := hpairs pair row hp
  have hrow' := hpairs pair' row' hp'
  obtain ⟨a, b, ha, hb, rfl⟩ := movedPair_eq_some.mp hq
  obtain ⟨a', b', ha', hb', heq⟩ := movedPair_eq_some.mp hq'
  rcases ordered_eq heq with heq | heq
  · obtain ⟨rfl, rfl⟩ := Prod.mk.inj heq
    exact Prod.ext (hapart _ _ _ hrow.left hrow'.left ha ha') (hapart _ _ _ hrow.right hrow'.right hb hb')
  · obtain ⟨rfl, rfl⟩ := Prod.mk.inj heq
    have h₁ := hapart _ _ _ hrow.left hrow'.right ha hb'
    have h₂ := hapart _ _ _ hrow.right hrow'.left hb ha'
    have hlt := hrow.lt
    rw [h₁, h₂] at hlt
    exact absurd hlt (textLt_asymm hrow'.lt)

include hpairs hapart in
theorem rekeyed_pairs (q : String × String) (row : CoChangeRow) :
    (Table.putAll (fun row => mergedRow row.write)
      (db.gitCoChanges.deleteWhere fun pair => isMoved moves pair.1 || isMoved moves pair.2)
      ((movedPairRows db moves).filterMap fun row => (movedPair moves row.1).map fun q => (q, row.2))).lookup q =
        some row ↔
      ∃ pair, db.gitCoChanges.lookup pair = some row ∧ movedPair moves pair = some q := by
  refine Table.lookup_rekey movedPairRows_spec.1 movedPairRows_spec.2 ?_ ?_ ?_ q row
  · exact fun pair pair' v v' t hp hp' => movedPair_apart hpairs hapart hp hp'
  · intro pair v hp hnot
    rw [Bool.or_eq_false_iff] at hnot
    refine movedPair_eq_some.mpr ⟨pair.1, pair.2, moved_of_not_isMoved hnot.1, moved_of_not_isMoved hnot.2, ?_⟩
    exact (ordered_of_lt (hpairs pair v hp).lt).1
  · intro pair v hp
    have hwindows := (hpairs pair v hp).windows
    obtain ⟨count, last, first, mask, windows⟩ := v
    simp only at hwindows
    rw [hwindows]
    rfl

include hkeys hpairs hapart in
/-- Re-keying a store moves its rows and changes none of them. -/
theorem rekeyGitHistory_spec :
    ∃ db', rekeyGitHistory db moves = some db' ∧
      (∀ q row, db'.gitFiles.lookup q = some row ↔ ∃ p, db.gitFiles.lookup p = some row ∧ moved moves p = some q) ∧
      (∀ q row, db'.gitCoChanges.lookup q = some row ↔
        ∃ pair, db.gitCoChanges.lookup pair = some row ∧ movedPair moves pair = some q) ∧
      ∀ key, db'.authorEvents.lookup key = (rekeyGitAuthorEvents moves db).authorEvents.lookup key := by
  have hends : ∀ row ∈ movedPairRows db moves, ∀ a b, moved moves row.1.1 = some a →
      moved moves row.1.2 = some b → a ≠ b := by
    rintro row hrow a b ha hb rfl
    have hstored := hpairs row.1 row.2 ((movedPairRows_spec.2 row.1 row.2).mp hrow).1
    exact textLt_ne hstored.lt (hapart _ _ a hstored.left hstored.right ha hb)
  by_cases hempty : moves = []
  · subst hempty
    refine ⟨db, rfl, fun q row => ?_, fun q row => ?_, fun key => ?_⟩
    · constructor
      · exact fun h => ⟨q, h, rfl⟩
      · rintro ⟨p, h, hp⟩
        cases hp
        exact h
    · constructor
      · exact fun h => ⟨q, h, congrArg some (ordered_of_lt (hpairs q row h).lt).1⟩
      · rintro ⟨pair, h, hp⟩
        obtain ⟨a, b, ha, hb, hq⟩ := movedPair_eq_some.mp hp
        cases ha
        cases hb
        rwa [← hq, (ordered_of_lt (hpairs pair row h).lt).1]
    · exact (Table.lookup_deleteWhere (fun key => isMoved [] key.1) db.authorEvents key).symm
  · have hrun : rekeyGitHistory db moves = some (rekeyGitAuthorEvents moves
        { deleteMoved db moves with
          gitFiles := Table.putAll fileRow (deleteMoved db moves).gitFiles
            ((movedFileRows db moves).filterMap fun row => (moved moves row.1).map fun q => (q, row.2))
          gitCoChanges := Table.putAll (fun row => mergedRow row.write) (deleteMoved db moves).gitCoChanges
            ((movedPairRows db moves).filterMap fun row => (movedPair moves row.1).map fun q => (q, row.2)) }) := by
      rw [rekeyGitHistory, if_neg (by simpa using hempty)]
      simp only [foldl_moveFile, foldlM_movePair hends, Option.bind_eq_bind, Option.bind_some]
      rfl
    exact ⟨_, hrun, rekeyed_files hkeys hapart, rekeyed_pairs hpairs hapart, fun key => rfl⟩

end Store

section Tables

variable (h : Holds policy db ks) (hkeys : (moves.map Prod.fst).Nodup)
  (hmoved : ∀ p, Recorded ks p → moved moves p = some (S p))

include h in
theorem recorded_of_file {path : String} {row : GitFileRow} (hrow : db.gitFiles.lookup path = some row) :
    Recorded ks path := by
  rw [h.files] at hrow
  exact recorded_of_fileContent hrow

include h in
theorem recorded_of_event {key : String × String} {event : AuthorEvent}
    (hevent : db.authorEvents.lookup key = some event) : Recorded ks key.1 := by
  rw [h.events] at hevent
  obtain ⟨k, hfind, -⟩ := Option.map_eq_some_iff.mp hevent
  have hprop := List.find?_some hfind
  rw [decide_eq_true_eq] at hprop
  exact ⟨k, List.mem_reverse.mp (List.mem_of_find?_eq_some hfind), hprop.2⟩

include hmoved in
theorem stays {path : String} (hp : Recorded ks path) (hnot : isMoved moves path = false) : S path = path := by
  have := hmoved path hp
  rw [moved_of_not_isMoved hnot, Option.some_inj] at this
  exact this.symm

include h hkeys hmoved in
theorem movedEvents_eq :
    movedEvents db moves = (eventsToMove db moves).map fun e => ((S e.1.1, e.1.2), e.2) := by
  rw [movedEvents, eventsToMove, List.map_flatMap]
  refine List.flatMap_congr fun m hm => ?_
  cases hm2 : m.2 with
  | some target =>
    refine List.map_congr_left fun e he => ?_
    obtain ⟨hrow, hkey⟩ := List.mem_filter.mp he
    have hp := recorded_of_event h (Table.mem_rows.mp hrow)
    have htarget := hmoved e.1.1 hp
    rw [of_decide_eq_true hkey, moved_of_mem hkeys hm, hm2, Option.some_inj] at htarget
    rw [htarget, of_decide_eq_true hkey]
  | none =>
    -- dropped paths have no stored rows
    have hnil : db.authorEvents.rows.filter (fun e => e.1.1 = m.1) = [] := by
      refine List.filter_eq_nil_iff.mpr fun e he hkey => ?_
      have hp := recorded_of_event h (Table.mem_rows.mp he)
      have htarget := hmoved e.1.1 hp
      rw [of_decide_eq_true hkey, moved_of_mem hkeys hm, hm2] at htarget
      cases htarget
    rw [hnil]
    rfl

include h in
/-- What a stored pair row is about. -/
theorem stats_of_pair (hd : Distinct ks) {pair : String × String} {row : CoChangeRow}
    (hrow : db.gitCoChanges.lookup pair = some row) :
    ∃ stats, pairContent policy ks pair = some stats ∧ CoChangeRow.ofStats stats = row ∧
      Recorded ks pair.1 ∧ Recorded ks pair.2 ∧ textLt pair.1 pair.2 := by
  rw [h.pairs] at hrow
  obtain ⟨stats, hstats, hof⟩ := Option.map_eq_some_iff.mp hrow
  exact ⟨stats, hstats, hof, recorded_of_pairContent hd hstats⟩

include h in
theorem stored_of_recorded {path : String} (hp : Recorded ks path) : Stored db path := by
  obtain ⟨row, hrow⟩ := fileContent_of_recorded hp
  exact ⟨row, by rw [h.files, hrow]⟩

include h in
theorem pairsStored_of_holds (hd : Distinct ks) : PairsStored db := by
  intro pair row hrow
  obtain ⟨stats, -, rfl, ha, hb, hlt⟩ := stats_of_pair h hd hrow
  exact ⟨stored_of_recorded h ha, stored_of_recorded h hb, hlt, rfl⟩

include h hmoved in
theorem movesApart_of_apart (hS : Apart S ks) : MovesApart db moves := by
  rintro p q t ⟨row, hp⟩ ⟨row', hq⟩ hpt hqt
  have hrec := recorded_of_file h hp
  have hrec' := recorded_of_file h hq
  rw [hmoved p hrec] at hpt
  rw [hmoved q hrec'] at hqt
  exact hS p q hrec hrec' (Option.some_inj.mp (hpt.trans hqt.symm))

include h hkeys hmoved in
theorem rekey_events (hsha : (ks.map Keyed.sha).Nodup) (hS : Apart S ks) (q sha : String) :
    (Table.putAll (fun event old => old.getD event) (db.authorEvents.deleteWhere fun key => isMoved moves key.1)
      (movedEvents db moves)).lookup (q, sha) = eventContent (ks.map (Keyed.rekey S)) q sha := by
  refine Option.ext fun event => ?_
  rw [eventContent_rekey hsha, movedEvents_eq h hkeys hmoved]
  simp only [← h.events]
  have hall : (eventsToMove db moves).map (fun e => ((S e.1.1, e.1.2), e.2)) =
      (eventsToMove db moves).filterMap fun e => (some (S e.1.1, e.1.2)).map fun key => (key, e.2) := by
    rw [← List.filterMap_eq_map]
    rfl
  rw [hall]
  refine (Table.lookup_rekey (F := fun key => some (S key.1, key.2)) (m := db.authorEvents)
    (nodup_eventsToMove hkeys) (fun k v => mem_eventsToMove) ?_ ?_ (fun k v _ => rfl) (q, sha) event).trans ?_
  · rintro ⟨p, sha⟩ ⟨p', sha'⟩ v v' t hp hp' heq heq'
    obtain ⟨h₁, rfl⟩ := Prod.mk.inj (Option.some_inj.mp (heq.trans heq'.symm))
    rw [hS p p' (recorded_of_event h hp) (recorded_of_event h hp') h₁]
  · rintro ⟨p, sha⟩ v hp hnot
    rw [stays hmoved (recorded_of_event h hp) hnot]
  · constructor
    · rintro ⟨⟨p, sha'⟩, hp, heq⟩
      obtain ⟨rfl, rfl⟩ := Prod.mk.inj (Option.some_inj.mp heq)
      exact ⟨p, hp, rfl⟩
    · rintro ⟨p, hp, rfl⟩
      exact ⟨(p, sha), hp, rfl⟩

include h hkeys hmoved in
/-- The moved tables hold the content of the same commits under their new paths. -/
theorem rekey_holds (hd : Distinct ks) (hsha : (ks.map Keyed.sha).Nodup) (hS : Apart S ks)
    (htest : ∀ p, Recorded ks p → policy.testLike (S p) = policy.testLike p) :
    ∃ db', rekeyGitHistory db moves = some db' ∧ Holds policy db' (ks.map (Keyed.rekey S)) := by
  obtain ⟨db', hrun, hfiles, hpairs, hevents⟩ :=
    rekeyGitHistory_spec hkeys (pairsStored_of_holds h hd) (movesApart_of_apart h hmoved hS)
  refine ⟨db', hrun, fun q => ?_, fun q => ?_, fun q sha => ?_⟩
  · refine Option.ext fun row => ?_
    rw [hfiles, fileContent_rekey hS]
    refine exists_congr fun p => ?_
    rw [h.files]
    refine and_congr_right fun hp => ?_
    rw [hmoved p (recorded_of_fileContent hp), Option.some_inj]
  · refine Option.ext fun row => ?_
    rw [hpairs, Option.map_eq_some_iff]
    simp only [pairContent_rekey hS hd htest]
    constructor
    · rintro ⟨pair, hrow, hq⟩
      obtain ⟨stats, hstats, hof, ha, hb, -⟩ := stats_of_pair h hd hrow
      refine ⟨stats, ⟨pair, hstats, ?_⟩, hof⟩
      rw [movedPair, hmoved _ ha, hmoved _ hb, Option.some_inj] at hq
      exact hq
    · rintro ⟨stats, ⟨pair, hstats, hq⟩, hof⟩
      obtain ⟨ha, hb, -⟩ := recorded_of_pairContent hd hstats
      refine ⟨pair, by rw [h.pairs, hstats, Option.map_some, hof], ?_⟩
      rw [movedPair, hmoved _ ha, hmoved _ hb, Option.some_inj]
      exact hq
  · rw [hevents]
    exact rekey_events h hkeys hmoved hsha hS q sha

end Tables

end Moved

section Diverges

variable {ks : List Keyed} {db : Database}

/-- Two recorded sources with one target. -/
def Folds (db : Database) (m m' : Move) : Prop :=
  ∃ target, m.2 = some target ∧ m'.2 = some target ∧ (db.gitFiles.lookup m.1).isSome = true ∧
    (db.gitFiles.lookup m'.1).isSome = true

theorem Folds.symm {m m' : Move} (h : Folds db m m') : Folds db m' m := by
  obtain ⟨target, h₁, h₂, h₃, h₄⟩ := h
  exact ⟨target, h₂, h₁, h₄, h₃⟩

/-- What the loop has ruled out when it ends. -/
structure Followable (policy : Policy) (db : Database) (sources : List String) (moves : List Move)
    (recorded : List String) : Prop where
  sides : ∀ source target, (source, some target) ∈ moves → policy.testLike source = policy.testLike target
  free : ∀ source target, (source, some target) ∈ moves → target ∈ sources ∨ db.gitFiles.lookup target = none
  fresh : ∀ source target, (source, some target) ∈ moves → (db.gitFiles.lookup source).isSome = true → target ∉ recorded
  apart : moves.Pairwise fun m m' => ¬Folds db m m'

theorem forall_moves_cons {P : String → String → Prop} {source target : String} {moves : List Move}
    (h : P source target) (hrest : ∀ s t, (s, some t) ∈ moves → P s t) :
    ∀ s t, (s, some t) ∈ (source, some target) :: moves → P s t := by
  intro s t hmem
  rcases List.mem_cons.mp hmem with heq | hmem
  · cases heq
    exact h
  · exact hrest s t hmem

theorem divergesFrom_false {sources : List String} : ∀ {moves : List Move} {recorded : List String},
    divergesFrom policy db sources moves recorded = false → Followable policy db sources moves recorded := by
  intro moves
  induction moves with
  | nil =>
    intro recorded _
    refine ⟨?_, ?_, ?_, List.Pairwise.nil⟩
    all_goals
      intro source target hmem
      cases hmem
  | cons m moves ih =>
    intro recorded h
    obtain ⟨source, target⟩ := m
    cases target with
    | none =>
      rw [divergesFrom] at h
      have hrest := ih h
      have hcons : ∀ source' target', (source', some target') ∈ (source, none) :: moves →
          (source', some target') ∈ moves := by
        intro source' target' hmem
        rcases List.mem_cons.mp hmem with heq | hmem
        · cases heq
        · exact hmem
      refine ⟨fun s t hmem => hrest.sides s t (hcons s t hmem), fun s t hmem => hrest.free s t (hcons s t hmem),
        fun s t hmem => hrest.fresh s t (hcons s t hmem), List.Pairwise.cons ?_ hrest.apart⟩
      rintro m' _ ⟨target, hnone, -⟩
      cases hnone
    | some target =>
      rw [divergesFrom] at h
      split at h
      · cases h
      rename_i hside
      split at h
      · cases h
      rename_i hfree
      have hside' : policy.testLike source = policy.testLike target := by simpa using hside
      have hfree' : target ∈ sources ∨ db.gitFiles.lookup target = none := by
        by_cases hmem : target ∈ sources
        · exact .inl hmem
        · refine .inr ?_
          simpa [hmem] using hfree
      split at h
      · split at h
        · cases h
        · rename_i hnew
          have hrest := ih h
          refine ⟨forall_moves_cons hside' hrest.sides, forall_moves_cons hfree' hrest.free,
            forall_moves_cons (fun _ => by simpa using hnew) fun s t hmem hs hin =>
              hrest.fresh s t hmem hs (List.mem_cons_of_mem _ hin), List.Pairwise.cons ?_ hrest.apart⟩
          -- a later recorded source with this target would have met it in `recorded`
          rintro ⟨source', target'⟩ hmem ⟨t, h₁, h₂, -, h₄⟩
          cases h₁
          cases h₂
          exact hrest.fresh source' target hmem h₄ List.mem_cons_self
      · rename_i hrecorded
        have hrest := ih h
        refine ⟨forall_moves_cons hside' hrest.sides, forall_moves_cons hfree' hrest.free,
          forall_moves_cons (fun hs => absurd hs hrecorded) hrest.fresh, List.Pairwise.cons ?_ hrest.apart⟩
        rintro m' _ ⟨t, -, -, h₃, -⟩
        exact hrecorded h₃

variable {successor : Successor}

theorem keys_movesOf : (movesOf policy successor).map Prod.fst = successor.rows.map Prod.fst := by
  rw [movesOf, List.map_map]
  rfl

theorem nodup_movesOf : ((movesOf policy successor).map Prod.fst).Nodup := by
  rw [keys_movesOf]
  exact successor.nodup_rows

theorem isMoved_movesOf {path : String} :
    isMoved (movesOf policy successor) path = true ↔ ∃ target, successor.lookup path = some target := by
  rw [isMoved_iff, keys_movesOf, List.mem_map]
  constructor
  · rintro ⟨⟨p, target⟩, hrow, rfl⟩
    exact ⟨target, Table.mem_rows.mp hrow⟩
  · rintro ⟨target, hlookup⟩
    exact ⟨(path, target), Table.mem_rows.mpr hlookup, rfl⟩

theorem mem_movesOf {path target : String} (hlookup : successor.lookup path = some target)
    (hpath : policy.excluded path = false) (htarget : policy.excluded target = false) :
    (path, some target) ∈ movesOf policy successor :=
  List.mem_map.mpr ⟨(path, target), Table.mem_rows.mpr hlookup, by simp [hpath, htarget]⟩

/-- A path that goes somewhere stays or is moved there. -/
theorem mem_of_moved {moves : List Move} {path target : String} (h : moved moves path = some target) :
    isMoved moves path = false ∧ target = path ∨ (path, some target) ∈ moves := by
  unfold moved at h
  cases hfind : moves.find? fun m => m.1 = path with
  | none =>
    rw [hfind] at h
    refine .inl ⟨?_, (Option.some_inj.mp h).symm⟩
    rw [← Bool.not_eq_true, isMoved_iff, List.mem_map]
    rintro ⟨m, hm, heq⟩
    exact List.find?_eq_none.mp hfind m hm (decide_eq_true heq)
  | some m =>
    rw [hfind] at h
    have hkey : m.1 = path := by simpa using List.find?_some hfind
    refine .inr ?_
    rw [← hkey, ← h]
    exact List.mem_of_find?_eq_some hfind

theorem Followable.movesApart {moves : List Move} {recorded : List String}
    (hfollow : Followable policy db (moves.map Prod.fst) moves recorded) : MovesApart db moves := by
  -- a stored path that another one moves onto is itself moved away
  have honto : ∀ p q, Stored db q → isMoved moves q = false → (p, some q) ∉ moves := by
    rintro p q ⟨row, hrow⟩ hnot hmem
    rcases hfollow.free p q hmem with hsource | hfree
    · rw [← isMoved_iff, hnot] at hsource
      cases hsource
    · rw [hrow] at hfree
      cases hfree
  intro p q t hp hq hpt hqt
  rcases mem_of_moved hpt with ⟨hpnot, rfl⟩ | hpmem
  · rcases mem_of_moved hqt with ⟨-, rfl⟩ | hqmem
    · rfl
    · exact absurd hqmem (honto q t hp hpnot)
  · rcases mem_of_moved hqt with ⟨hqnot, rfl⟩ | hqmem
    · exact absurd hpmem (honto p t hq hqnot)
    · by_contra hne
      have hdistinct : ((p, some t) : Move) ≠ (q, some t) := fun hpq => hne (congrArg Prod.fst hpq)
      have : Std.Symm fun m m' => ¬Folds db m m' := ⟨fun m m' hnot hfolds => hnot hfolds.symm⟩
      refine hfollow.apart.forall hpmem hqmem hdistinct ?_
      obtain ⟨row, hrow⟩ := hp
      obtain ⟨row', hrow'⟩ := hq
      exact ⟨t, rfl, rfl, by rw [hrow]; rfl, by rw [hrow']; rfl⟩

theorem movesApart_movesOf (hno : rekeyDivergesFromFullScan policy db (movesOf policy successor) = false) :
    MovesApart db (movesOf policy successor) := (divergesFrom_false hno).movesApart

/-- The recorded paths and their successors are indexed. -/
def Indexed (policy : Policy) (successor : Successor) (ks : List Keyed) : Prop :=
  ∀ p, Recorded ks p → policy.excluded p = false ∧ policy.excluded (successor.current p) = false

section Follow

variable (h : Holds policy db ks) (hindexed : Indexed policy successor ks)
  (hno : rekeyDivergesFromFullScan policy db (movesOf policy successor) = false)

include hindexed in
theorem moved_movesOf (p : String) (hp : Recorded ks p) :
    moved (movesOf policy successor) p = some (successor.current p) := by
  obtain ⟨hpath, htarget⟩ := hindexed p hp
  cases hlookup : successor.lookup p with
  | none =>
    have hnot : isMoved (movesOf policy successor) p = false := by
      rw [← Bool.not_eq_true, isMoved_movesOf, hlookup]
      simp
    rw [moved_of_not_isMoved hnot, Successor.current, hlookup]
    rfl
  | some target =>
    rw [Successor.current, hlookup, Option.getD_some] at htarget ⊢
    exact moved_of_mem nodup_movesOf (mem_movesOf hlookup hpath htarget)

include hindexed hno in
theorem testLike_movesOf (p : String) (hp : Recorded ks p) :
    policy.testLike (successor.current p) = policy.testLike p := by
  obtain ⟨hpath, htarget⟩ := hindexed p hp
  cases hlookup : successor.lookup p with
  | none =>
    rw [Successor.current, hlookup]
    rfl
  | some target =>
    rw [Successor.current, hlookup, Option.getD_some] at htarget ⊢
    exact ((divergesFrom_false hno).sides p target (mem_movesOf hlookup hpath htarget)).symm

include h hindexed hno in
theorem apart_movesOf : Apart successor.current ks := by
  intro p q hp hq heq
  refine movesApart_movesOf hno p q (successor.current p) (stored_of_recorded h hp) (stored_of_recorded h hq) ?_ ?_
  · exact moved_movesOf hindexed p hp
  · rw [heq]
    exact moved_movesOf hindexed q hq

end Follow

end Diverges

end Git
end CodeSage
