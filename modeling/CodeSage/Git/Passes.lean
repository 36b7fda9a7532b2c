import CodeSage.Git.Content

/-!
# CodeSage.Git.Passes

What one pass writes. The accumulated totals are the content of the pass's commits
(`accumulateAll_totals`), a full pass leaves exactly that content (`writeFull_holds`), and the deltas of an
incremental pass leave the content of the stored commits and the new ones together (`writeDeltas_holds`).
-/

namespace CodeSage
namespace Git

open Lib

variable {policy : Policy}

/-- The commits of a pass, with the paths they count for. -/
def keysOf (policy : Policy) (commits : List Commit) : List Keyed := commits.filterMap (keyedOf policy)

section Pairs

theorem mem_pairsOf {kept : List String} {p : String × String} :
    p ∈ pairsOf kept → p.1 ∈ kept ∧ p.2 ∈ kept := by
  induction kept with
  | nil => intro h; cases h
  | cons a rest ih =>
    intro h
    rcases List.mem_append.mp h with h | h
    · obtain ⟨b, hb, rfl⟩ := List.mem_map.mp h
      exact ⟨List.mem_cons_self, List.mem_cons_of_mem _ hb⟩
    · exact ⟨List.mem_cons_of_mem _ (ih h).1, List.mem_cons_of_mem _ (ih h).2⟩

theorem ne_of_mem_pairsOf {kept : List String} (hnodup : kept.Nodup) {p : String × String}
    (h : p ∈ pairsOf kept) : p.1 ≠ p.2 := by
  induction kept with
  | nil => cases h
  | cons a rest ih =>
    rw [List.nodup_cons] at hnodup
    rcases List.mem_append.mp h with h | h
    · obtain ⟨b, hb, rfl⟩ := List.mem_map.mp h
      intro heq
      have hab : a = b := heq
      exact hnodup.1 (hab ▸ hb)
    · exact ih hnodup.2 h

/-- Of two different paths, one order of them is a pair. -/
theorem exists_mem_pairsOf {kept : List String} {a b : String} (ha : a ∈ kept) (hb : b ∈ kept) (hne : a ≠ b) :
    (a, b) ∈ pairsOf kept ∨ (b, a) ∈ pairsOf kept := by
  induction kept with
  | nil => cases ha
  | cons x rest ih =>
    rcases List.mem_cons.mp ha with rfl | ha'
    · rcases List.mem_cons.mp hb with rfl | hb'
      · exact absurd rfl hne
      · exact .inl (List.mem_append_left _ (List.mem_map_of_mem hb'))
    · rcases List.mem_cons.mp hb with rfl | hb'
      · exact .inr (List.mem_append_left _ (List.mem_map_of_mem ha'))
      · rcases ih ha' hb' with h | h
        · exact .inl (List.mem_append_right _ h)
        · exact .inr (List.mem_append_right _ h)

theorem ordered_lt {p : String × String} (h : p.1 ≠ p.2) : textLt (ordered p).1 (ordered p).2 := by
  unfold ordered
  split
  · assumption
  · rename_i hlt
    exact textLt_of_not hlt h

theorem ordered_of_lt {a b : String} (h : textLt a b) : ordered (a, b) = (a, b) ∧ ordered (b, a) = (a, b) :=
  ⟨if_pos h, if_neg (textLt_asymm h)⟩

/-- The two paths of a pair, in either order. -/
theorem ordered_eq {p q : String × String} (h : ordered p = ordered q) : p = q ∨ p = (q.2, q.1) := by
  obtain ⟨a, b⟩ := p
  obtain ⟨c, d⟩ := q
  unfold ordered at h
  split at h <;> split at h <;> simp_all

theorem nodup_ordered_pairsOf {kept : List String} (hnodup : kept.Nodup) : ((pairsOf kept).map ordered).Nodup := by
  induction kept with
  | nil => exact List.nodup_nil
  | cons a rest ih =>
    have hne := fun p (hp : p ∈ pairsOf (a :: rest)) => ne_of_mem_pairsOf hnodup hp
    rw [List.nodup_cons] at hnodup
    rw [pairsOf, List.map_append, List.nodup_append]
    refine ⟨?_, ih hnodup.2, ?_⟩
    · rw [List.map_map]
      refine hnodup.2.map_on fun b hb c hc heq => ?_
      rcases ordered_eq heq with h | h
      · exact (Prod.mk.inj h).2
      · obtain ⟨rfl, rfl⟩ := Prod.mk.inj h
        rfl
    · -- a pair with `a` and a pair of `rest` differ, since `a` is not in `rest`
      rintro x hx y hy rfl
      obtain ⟨p, hp, rfl⟩ := List.mem_map.mp hx
      obtain ⟨b, hb, rfl⟩ := List.mem_map.mp hp
      obtain ⟨q, hq, heq⟩ := List.mem_map.mp hy
      have hmem := mem_pairsOf hq
      rcases ordered_eq heq with rfl | rfl
      · exact hnodup.1 hmem.1
      · exact hnodup.1 hmem.2

theorem nodup_admittedPairs {kept : List String} (hnodup : kept.Nodup) : (admittedPairs policy kept).Nodup := by
  unfold admittedPairs
  split
  · exact (nodup_ordered_pairsOf hnodup).sublist (List.filter_sublist.map _)
  · exact List.nodup_nil

/-- A commit counts for the ordered pairs of its paths. -/
theorem mem_admittedPairs {kept : List String} (hnodup : kept.Nodup) {a b : String} :
    (a, b) ∈ admittedPairs policy kept ↔
      kept.length ≤ MAX_FILES_PER_COMMIT_FOR_COCHANGE ∧ a ∈ kept ∧ b ∈ kept ∧ textLt a b ∧
        ¬(policy.testLike a = true ∧ policy.testLike b = true) := by
  unfold admittedPairs
  split
  · rename_i hcap
    have htest : ∀ c d, (!(policy.testLike c && policy.testLike d)) = true ↔
        ¬(policy.testLike c = true ∧ policy.testLike d = true) := by
      intro c d
      rw [Bool.not_eq_true', ← Bool.not_eq_true, Bool.and_eq_true]
    simp only [hcap, true_and, List.mem_map, List.mem_filter, htest]
    constructor
    · rintro ⟨⟨c, d⟩, ⟨hmem, hcd⟩, heq⟩
      have hlt := ordered_lt (ne_of_mem_pairsOf hnodup hmem)
      have hin := mem_pairsOf hmem
      rw [heq] at hlt
      rcases ordered_eq (heq.trans (ordered_of_lt hlt).1.symm) with h | h
      · obtain ⟨rfl, rfl⟩ := Prod.mk.inj h
        exact ⟨hin.1, hin.2, hlt, hcd⟩
      · obtain ⟨rfl, rfl⟩ := Prod.mk.inj h
        exact ⟨hin.2, hin.1, hlt, fun hdc => hcd hdc.symm⟩
    · rintro ⟨ha, hb, hlt, hab⟩
      rcases exists_mem_pairsOf ha hb (textLt_ne hlt) with h | h
      · exact ⟨(a, b), ⟨h, hab⟩, (ordered_of_lt hlt).1⟩
      · exact ⟨(b, a), ⟨h, fun hba => hab hba.symm⟩, (ordered_of_lt hlt).2⟩
  · rename_i hcap
    simp [hcap]

end Pairs

section Totals

/-- The totals of the commits read so far. -/
structure Totals.Count (totals : Totals) (policy : Policy) (ks : List Keyed) : Prop where
  files : ∀ path, totals.files.lookup path = fileContent ks path
  pairs : ∀ pair, totals.pairs.lookup pair = pairContent policy ks pair

theorem filterKept_nodup {commit : Commit} {kept : List String} (hnodup : commit.changes.Nodup)
    (h : filterKept policy commit = some kept) : kept.Nodup := by
  unfold filterKept at h
  split at h
  · cases h
  · simp only at h
    split at h
    · cases h
    · cases h
      exact hnodup.filter _

theorem accumulate_count {totals : Totals} {ks : List Keyed} (h : totals.Count policy ks) {commit : Commit}
    {kept : List String} (hnodup : kept.Nodup) :
    (accumulate policy totals commit kept).Count policy
      (ks ++ [⟨commit.sha, commit.author, commit.timestamp, isFixCommit commit.subject, kept⟩]) := by
  constructor
  · intro path
    rw [accumulate, Table.lookup_foldl_put hnodup, h.files, fileContent_append, fileContent_singleton]
    split
    · exact congrArg some (bumpFile_eq
        ⟨commit.sha, commit.author, commit.timestamp, isFixCommit commit.subject, kept⟩ _)
    · rfl
  · intro pair
    rw [accumulate, Table.lookup_foldl_put (nodup_admittedPairs hnodup), h.pairs, pairStats_append,
      pairContent_singleton]
    split
    · exact congrArg some (bumpPair_eq
        ⟨commit.sha, commit.author, commit.timestamp, isFixCommit commit.subject, kept⟩ _)
    · rfl

theorem keysOf_concat (commits : List Commit) (commit : Commit) :
    keysOf policy (commits ++ [commit]) = keysOf policy commits ++ (keyedOf policy commit).toList := by
  rw [keysOf, List.filterMap_append, keysOf]
  cases h : keyedOf policy commit <;> simp [h]

theorem foldl_accumulate {commits : List Commit} : ∀ {totals : Totals} {before : List Commit},
    totals.Count policy (keysOf policy before) → (∀ c ∈ commits, c.changes.Nodup) →
    (commits.foldl (fun totals commit =>
      match filterKept policy commit with
      | none => totals
      | some kept => accumulate policy totals commit kept) totals).Count policy
      (keysOf policy (before ++ commits)) := by
  induction commits with
  | nil =>
    intro totals before h _
    rwa [List.append_nil]
  | cons commit commits ih =>
    intro totals before h hnodup
    have hstep : (match filterKept policy commit with
        | none => totals
        | some kept => accumulate policy totals commit kept).Count policy
        (keysOf policy (before ++ [commit])) := by
      rw [keysOf_concat, keyedOf]
      cases hkept : filterKept policy commit with
      | none => simpa using h
      | some kept => exact accumulate_count h (filterKept_nodup (hnodup commit List.mem_cons_self) hkept)
    have := ih hstep fun c hc => hnodup c (List.mem_cons_of_mem _ hc)
    rwa [List.append_assoc, List.singleton_append] at this

/-- The accumulated totals are the content of the commits. -/
theorem accumulateAll_count {commits : List Commit} (hnodup : ∀ c ∈ commits, c.changes.Nodup) :
    (accumulateAll policy commits).Count policy (keysOf policy commits) := by
  have hempty : (⟨∅, ∅⟩ : Totals).Count policy (keysOf policy []) :=
    ⟨fun path => rfl, fun pair => rfl⟩
  exact foldl_accumulate hempty hnodup

end Totals

section Events

theorem lookup_foldl_events (commit : Commit) (path sha : String) : ∀ (kept : List String) (db : Database),
    (kept.foldl (fun db path => upsertGitAuthorEvent db path commit.sha ⟨commit.author, commit.timestamp⟩)
      db).authorEvents.lookup (path, sha) =
      if commit.sha = sha ∧ path ∈ kept then some ⟨commit.author, commit.timestamp⟩
      else db.authorEvents.lookup (path, sha) := by
  intro kept
  induction kept with
  | nil =>
    intro db
    simp
  | cons head rest ih =>
    intro db
    rw [List.foldl_cons, ih, upsertGitAuthorEvent, Table.lookup_put]
    by_cases hsha : commit.sha = sha
    · by_cases hhead : path = head
      · simp [hsha, hhead]
      · simp [hsha, hhead]
    · simp [hsha, Ne.symm hsha]

/-- Only the events change, by the commits' own. -/
theorem writeAuthorEvents_spec (policy : Policy) (commits : List Commit) : ∀ (db : Database),
    (writeAuthorEvents policy db commits).gitFiles = db.gitFiles ∧
    (writeAuthorEvents policy db commits).gitCoChanges = db.gitCoChanges ∧
    ∀ path sha, (writeAuthorEvents policy db commits).authorEvents.lookup (path, sha) =
      overwrite (fun event _ => event) (db.authorEvents.lookup (path, sha))
        (eventContent (keysOf policy commits) path sha) := by
  induction commits with
  | nil => exact fun db => ⟨rfl, rfl, fun path sha => rfl⟩
  | cons commit commits ih =>
    intro db
    rw [writeAuthorEvents, List.foldl_cons, ← writeAuthorEvents]
    cases hkept : filterKept policy commit with
    | none =>
      have hkeys : keysOf policy (commit :: commits) = keysOf policy commits := by
        simp [keysOf, keyedOf, hkept]
      rw [hkeys]
      exact ih db
    | some kept =>
      have hkeys : keysOf policy (commit :: commits) =
          [⟨commit.sha, commit.author, commit.timestamp, isFixCommit commit.subject, kept⟩] ++
            keysOf policy commits := by
        simp [keysOf, keyedOf, hkept]
      have hframe : ∀ (kept : List String) (db : Database),
          (kept.foldl (fun db path => upsertGitAuthorEvent db path commit.sha ⟨commit.author, commit.timestamp⟩)
            db).gitFiles = db.gitFiles ∧
          (kept.foldl (fun db path => upsertGitAuthorEvent db path commit.sha ⟨commit.author, commit.timestamp⟩)
            db).gitCoChanges = db.gitCoChanges := by
        intro kept
        induction kept with
        | nil => exact fun db => ⟨rfl, rfl⟩
        | cons head rest ih => exact fun db => ih (upsertGitAuthorEvent db head commit.sha _)
      obtain ⟨hfiles, hpairs, hevents⟩ := ih (kept.foldl (fun db path =>
        upsertGitAuthorEvent db path commit.sha ⟨commit.author, commit.timestamp⟩) db)
      refine ⟨hfiles.trans (hframe kept db).1, hpairs.trans (hframe kept db).2, fun path sha => ?_⟩
      rw [hevents, hkeys, eventContent_append, lookup_foldl_events, eventContent_singleton]
      cases eventContent (keysOf policy commits) path sha with
      | some event => rfl
      | none =>
        simp only [overwrite, Option.elim_none]
        split <;> rfl

end Events

section Writes

theorem foldl_files {μ : Type} (g : μ → Option GitFileRow → GitFileRow)
    {step : Database → String × μ → Database}
    (hstep : ∀ db row, step db row = { db with gitFiles := db.gitFiles.put row.1 (g row.2) }) :
    ∀ (rows : List (String × μ)) (db : Database),
      rows.foldl step db = { db with gitFiles := Table.putAll g db.gitFiles rows } := by
  intro rows
  induction rows with
  | nil => exact fun db => rfl
  | cons row rows ih =>
    intro db
    rw [List.foldl_cons, ih, hstep]
    rfl

/-- Writing pair rows whose keys are in order. -/
theorem foldlM_pairs {μ : Type} (g : μ → Option CoChangeRow → CoChangeRow)
    {step : Database → (String × String) × μ → Option Database}
    (hstep : ∀ db row, textLt row.1.1 row.1.2 →
      step db row = some { db with gitCoChanges := db.gitCoChanges.put row.1 (g row.2) }) :
    ∀ (rows : List ((String × String) × μ)) (db : Database), (∀ row ∈ rows, textLt row.1.1 row.1.2) →
      rows.foldlM step db = some { db with gitCoChanges := Table.putAll g db.gitCoChanges rows } := by
  intro rows
  induction rows with
  | nil => exact fun db _ => rfl
  | cons row rows ih =>
    intro db hlt
    rw [List.foldlM_cons, hstep db row (hlt row List.mem_cons_self)]
    exact ih _ fun row hmem => hlt row (List.mem_cons_of_mem _ hmem)

theorem orderCoChangePair_of_lt {pair : String × String} (h : textLt pair.1 pair.2) :
    orderCoChangePair pair.1 pair.2 = some pair := by
  rw [orderCoChangePair, if_neg (textLt_ne h), if_pos h]

/-- Every commit names each of its paths once. -/
def Distinct (ks : List Keyed) : Prop := ∀ k ∈ ks, k.paths.Nodup

theorem keysOf_distinct {commits : List Commit} (hnodup : ∀ c ∈ commits, c.changes.Nodup) :
    Distinct (keysOf policy commits) := by
  intro k hk
  obtain ⟨c, hc, hkey⟩ := List.mem_filterMap.mp hk
  obtain ⟨kept, hkept, rfl⟩ := Option.map_eq_some_iff.mp hkey
  exact filterKept_nodup (hnodup c hc) hkept

theorem exists_of_pairContent {ks : List Keyed} {pair : String × String} {stats : PairStats}
    (h : pairContent policy ks pair = some stats) : ∃ k ∈ ks, pair ∈ admittedPairs policy k.paths := by
  unfold pairContent summarize at h
  split at h
  · cases h
  · rename_i hne
    obtain ⟨k, hk⟩ := List.exists_mem_of_ne_nil _ hne
    obtain ⟨hmem, hadm⟩ := List.mem_filter.mp hk
    exact ⟨k, hmem, of_decide_eq_true hadm⟩

theorem pairContent_lt {ks : List Keyed} (hd : Distinct ks) {pair : String × String} {stats : PairStats}
    (h : pairContent policy ks pair = some stats) : textLt pair.1 pair.2 := by
  obtain ⟨k, hk, hadm⟩ := exists_of_pairContent h
  exact ((mem_admittedPairs (hd k hk)).mp hadm).2.2.2.1

theorem totals_pairs_lt {totals : Totals} {ks : List Keyed} (h : totals.Count policy ks) (hd : Distinct ks) :
    ∀ row ∈ totals.pairs.rows, textLt row.1.1 row.1.2 := by
  intro row hrow
  have hlookup := Table.mem_rows.mp hrow
  rw [h.pairs] at hlookup
  exact pairContent_lt hd hlookup

/-- A full pass leaves the content of its commits. -/
theorem writeFull_holds {commits : List Commit} (hnodup : ∀ c ∈ commits, c.changes.Nodup) :
    ∃ db, (accumulateAll policy commits).pairs.rows.foldlM
        (fun db row => upsertGitCoChangeFull db row.1 row.2.write)
        ((accumulateAll policy commits).files.rows.foldl (fun db row => upsertGitFile db row.1 row.2)
          (writeAuthorEvents policy Database.empty commits)) = some db ∧
      Holds policy db (keysOf policy commits) := by
  have hcount : (accumulateAll policy commits).Count policy (keysOf policy commits) := accumulateAll_count hnodup
  obtain ⟨hfiles, hpairs, hevents⟩ := writeAuthorEvents_spec policy commits Database.empty
  have hpair : ∀ (db : Database) (row : (String × String) × PairStats), textLt row.1.1 row.1.2 →
      upsertGitCoChangeFull db row.1 row.2.write =
        some { db with gitCoChanges := db.gitCoChanges.put row.1 fun _ => row.2.write.row } := by
    intro db row hlt
    simp [upsertGitCoChangeFull, orderCoChangePair_of_lt hlt]
  have hfile : ∀ (db : Database) (row : String × GitFileRow), upsertGitFile db row.1 row.2 =
      { db with gitFiles := db.gitFiles.put row.1 fun _ => row.2 } := fun _ _ => rfl
  rw [foldl_files (fun w _ => w) hfile,
    foldlM_pairs (fun stats _ => stats.write.row) hpair _ _ (totals_pairs_lt hcount (keysOf_distinct hnodup))]
  refine ⟨_, rfl, fun path => ?_, fun pair => ?_, fun path sha => ?_⟩
  · rw [Table.lookup_putAll_rows, hcount.files, hfiles]
    cases fileContent (keysOf policy commits) path <;> rfl
  · rw [Table.lookup_putAll_rows, hcount.pairs, hpairs]
    cases pairContent policy (keysOf policy commits) pair <;> rfl
  · rw [hevents]
    cases eventContent (keysOf policy commits) path sha <;> rfl

/-- What the deltas of an incremental pass leave, row by row. -/
theorem writeDeltas_spec (policy : Policy) (db : Database) {commits : List Commit} (hnodup : ∀ c ∈ commits, c.changes.Nodup) :
    ∃ db', (accumulateAll policy commits).pairs.rows.foldlM
        (fun db row => incrGitCoChangeFull db row.1 row.2.write)
        ((accumulateAll policy commits).files.rows.foldl (fun db row => incrGitFile db row.1 row.2)
          (writeAuthorEvents policy db commits)) = some db' ∧
      (∀ path, db'.gitFiles.lookup path =
        overwrite fileRow (db.gitFiles.lookup path) (fileContent (keysOf policy commits) path)) ∧
      (∀ pair, db'.gitCoChanges.lookup pair =
        overwrite (fun stats => coChangeRow stats.write) (db.gitCoChanges.lookup pair)
          (pairContent policy (keysOf policy commits) pair)) ∧
      ∀ path sha, db'.authorEvents.lookup (path, sha) =
        overwrite (fun event _ => event) (db.authorEvents.lookup (path, sha))
          (eventContent (keysOf policy commits) path sha) := by
  have hcount : (accumulateAll policy commits).Count policy (keysOf policy commits) := accumulateAll_count hnodup
  obtain ⟨hfiles, hpairs, hevents⟩ := writeAuthorEvents_spec policy commits db
  have hpair : ∀ (db : Database) (row : (String × String) × PairStats), textLt row.1.1 row.1.2 →
      incrGitCoChangeFull db row.1 row.2.write =
        some { db with gitCoChanges := db.gitCoChanges.put row.1 (coChangeRow row.2.write) } := by
    intro db row hlt
    simp [incrGitCoChangeFull, orderCoChangePair_of_lt hlt]
  have hfile : ∀ (db : Database) (row : String × GitFileRow), incrGitFile db row.1 row.2 =
      { db with gitFiles := db.gitFiles.put row.1 (fileRow row.2) } := fun _ _ => rfl
  rw [foldl_files fileRow hfile,
    foldlM_pairs (fun stats => coChangeRow stats.write) hpair _ _ (totals_pairs_lt hcount (keysOf_distinct hnodup))]
  refine ⟨_, rfl, fun path => ?_, fun pair => ?_, hevents⟩
  · rw [Table.lookup_putAll_rows, hcount.files, hfiles]
    rfl
  · rw [Table.lookup_putAll_rows, hcount.pairs, hpairs]
    rfl

/-- The deltas of an incremental pass leave the content of the stored commits and of the new ones. -/
theorem writeDeltas_holds {db : Database} {ks : List Keyed} (h : Holds policy db ks) {commits : List Commit}
    (hnodup : ∀ c ∈ commits, c.changes.Nodup) :
    ∃ db', (accumulateAll policy commits).pairs.rows.foldlM
        (fun db row => incrGitCoChangeFull db row.1 row.2.write)
        ((accumulateAll policy commits).files.rows.foldl (fun db row => incrGitFile db row.1 row.2)
          (writeAuthorEvents policy db commits)) = some db' ∧
      Holds policy db' (ks ++ keysOf policy commits) := by
  obtain ⟨db', hrun, hfiles, hpairs, hevents⟩ := writeDeltas_spec policy db hnodup
  refine ⟨db', hrun, fun path => ?_, fun pair => ?_, fun path sha => ?_⟩
  · rw [hfiles, h.files, fileContent_append]
  · rw [hpairs, h.pairs, pairContent_append]
  · rw [hevents, h.events, eventContent_append]

end Writes

end Git
end CodeSage
