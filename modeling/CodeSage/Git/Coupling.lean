import CodeSage.Git.Rekey

/-!
# CodeSage.Git.Coupling

The history store under its two writers: indexing passes in any mode, at any HEAD and under any exclusion
policy (`git_history_index_with_options`), and the removal of files by the structural indexer
(`remove_file`). `Scored` is what the risk score takes for granted: both ends of a pair row have a
`git_files` row, with at least the pair's commits. The invariant that carries it is `Coupled`.
-/

namespace CodeSage
namespace Git

open Lib

/-- `IndexMode` -/
inductive IndexMode where
  | full
  | incremental
  | auto
  deriving DecidableEq, Repr

/-- What git answers during a pass. -/
structure Repo where
  /-- `resolve_head_sha` -/
  head : String
  /-- the epoch of the anchor -/
  epoch : Int
  /-- `head_paths` -/
  live : List String
  /-- `is_ancestor` of HEAD -/
  isAncestor : String → Bool
  /-- `git log` of HEAD -/
  log : List Commit
  /-- `git log last..HEAD` -/
  logSince : String → List Commit

/-- The globs of a pass, compiled and as the fingerprint that is stored. -/
structure Excludes where
  policy : Policy
  fingerprint : String

structure Index where
  db : Database
  /-- `last_sha` of `git_index_state` -/
  lastSha : Option String
  /-- `git_index_exclusion_fingerprint` -/
  exclusion : Option String

def Index.empty : Index := ⟨Database.empty, none, none⟩

/-- `git_history_index_with_options`. `none` is an error, and nothing is written. -/
def gitHistoryIndexWithOptions (index : Index) (repo : Repo) (excludes : Excludes) (mode : IndexMode) : Option Index :=
  let persist (db : Option Database) : Option Index :=
    db.map fun db => ⟨db, some repo.head, some excludes.fingerprint⟩
  let full := runFull excludes.policy repo.live repo.log
  let cutoff := historyWindowCutoff repo.epoch
  match mode, index.lastSha with
  | .full, _ => persist full
  | _, none => persist full
  | _, some lastSha =>
    -- rows built under another policy cannot be composed
    if index.exclusion ≠ some excludes.fingerprint then persist full
    else if lastSha = repo.head then persist (some (pruneGitAuthorEvents index.db cutoff))
    else if repo.isAncestor lastSha then
      persist (runIncremental excludes.policy repo.live cutoff repo.log (repo.logSince lastSha) index.db)
    else persist full

/-- The two statements of `remove_file` on the history tables; author events stay. -/
def removeFile (db : Database) (path : String) : Database :=
  { db with
    gitFiles := db.gitFiles.deleteWhere fun key => key = path
    gitCoChanges := db.gitCoChanges.deleteWhere fun pair => pair.1 = path ∨ pair.2 = path }

inductive Call where
  | index (repo : Repo) (excludes : Excludes) (mode : IndexMode)
  | remove (path : String)

/-- One transaction; a failed one is rolled back. -/
def Index.call (index : Index) : Call → Index
  | .index repo excludes mode => (gitHistoryIndexWithOptions index repo excludes mode).getD index
  | .remove path => { index with db := removeFile index.db path }

def Index.run (index : Index) (calls : List Call) : Index := calls.foldl Index.call index

/-- The file has a row, with that many commits or more. -/
def CommitsAtLeast (db : Database) (path : String) (count : Nat) : Prop :=
  ∃ row, db.gitFiles.lookup path = some row ∧ count ≤ row.totalCommits

/-- Every coupled file is a scored file. -/
def Scored (db : Database) : Prop :=
  ∀ a b row, db.gitCoChanges.lookup (a, b) = some row → CommitsAtLeast db a row.count ∧ CommitsAtLeast db b row.count

/-- A pair row as the writers leave it. -/
structure PairCoupled (db : Database) (pair : String × String) (row : CoChangeRow) : Prop where
  left : CommitsAtLeast db pair.1 row.count
  right : CommitsAtLeast db pair.2 row.count
  lt : textLt pair.1 pair.2
  windows : row.windows = windowsOf row.windowMask

def Coupled (db : Database) : Prop := ∀ pair row, db.gitCoChanges.lookup pair = some row → PairCoupled db pair row

theorem Coupled.scored {db : Database} (h : Coupled db) : Scored db :=
  fun a b row hrow => ⟨(h (a, b) row hrow).left, (h (a, b) row hrow).right⟩

theorem Coupled.pairsStored {db : Database} (h : Coupled db) : PairsStored db := by
  intro pair row hrow
  have hpair := h pair row hrow
  obtain ⟨fileRow, hfile, -⟩ := hpair.left
  obtain ⟨fileRow', hfile', -⟩ := hpair.right
  exact ⟨⟨fileRow, hfile⟩, ⟨fileRow', hfile'⟩, hpair.lt, hpair.windows⟩

theorem coupled_empty : Coupled Database.empty := fun _ _ hrow => nomatch hrow

/-- Only the two tables matter. -/
theorem Coupled.congr {db db' : Database} (h : Coupled db) (hfiles : db'.gitFiles = db.gitFiles)
    (hpairs : db'.gitCoChanges = db.gitCoChanges) : Coupled db' := by
  intro pair row hrow
  rw [hpairs] at hrow
  have hpair := h pair row hrow
  have hcommits : ∀ path count, CommitsAtLeast db path count → CommitsAtLeast db' path count := by
    intro path count hcount
    rwa [CommitsAtLeast, hfiles]
  exact ⟨hcommits _ _ hpair.left, hcommits _ _ hpair.right, hpair.lt, hpair.windows⟩

section Content

variable {policy : Policy} {ks : List Keyed}

theorem length_sharing_le {pair : String × String} {path : String}
    (hmem : ∀ k ∈ ks, pair ∈ admittedPairs policy k.paths → path ∈ k.paths) :
    (sharing policy ks pair).length ≤ (touching ks path).length := by
  rw [sharing, touching, ← List.countP_eq_length_filter, ← List.countP_eq_length_filter]
  exact List.countP_mono_left fun k hk hpair => decide_eq_true (hmem k hk (of_decide_eq_true hpair))

/-- A commit that counts for a pair counts for both of its files. -/
theorem fileContent_of_pairContent (hd : Distinct ks) {pair : String × String} {stats : PairStats}
    (h : pairContent policy ks pair = some stats) :
    (∃ row, fileContent ks pair.1 = some row ∧ stats.count ≤ row.totalCommits) ∧
      ∃ row, fileContent ks pair.2 = some row ∧ stats.count ≤ row.totalCommits := by
  obtain ⟨ha, hb, -⟩ := recorded_of_pairContent hd h
  obtain ⟨-, hstats⟩ := summarize_eq_some.mp h
  have hcount : stats.count = (sharing policy ks pair).length := by
    rw [← hstats]
    rfl
  have hfile : ∀ path, Recorded ks path → (∀ k ∈ ks, pair ∈ admittedPairs policy k.paths → path ∈ k.paths) →
      ∃ row, fileContent ks path = some row ∧ stats.count ≤ row.totalCommits := by
    intro path hpath hmem
    obtain ⟨row, hrow⟩ := fileContent_of_recorded hpath
    refine ⟨row, hrow, ?_⟩
    have htotal : row.totalCommits = (touching ks path).length := by
      rw [← (summarize_eq_some.mp hrow).2]
      rfl
    rw [hcount, htotal]
    exact length_sharing_le hmem
  exact ⟨hfile pair.1 ha fun k hk hadm => ((mem_admittedPairs (hd k hk)).mp hadm).2.1,
    hfile pair.2 hb fun k hk hadm => ((mem_admittedPairs (hd k hk)).mp hadm).2.2.1⟩

theorem coupled_of_holds {db : Database} (h : Holds policy db ks) (hd : Distinct ks) : Coupled db := by
  intro pair row hrow
  obtain ⟨stats, hstats, rfl, -, -, hlt⟩ := stats_of_pair h hd hrow
  obtain ⟨⟨ra, ha, hca⟩, ⟨rb, hb, hcb⟩⟩ := fileContent_of_pairContent hd hstats
  exact ⟨⟨ra, by rw [h.files, ha], hca⟩, ⟨rb, by rw [h.files, hb], hcb⟩, hlt, rfl⟩

/-- A file's row after the deltas has the commits it had and the new ones. -/
theorem commitsAtLeast_overwrite {db db' : Database} {path : String} {old delta : Nat}
    (hfile : db'.gitFiles.lookup path = overwrite fileRow (db.gitFiles.lookup path) (fileContent ks path))
    (hold : old = 0 ∨ CommitsAtLeast db path old)
    (hdelta : ∃ row, fileContent ks path = some row ∧ delta ≤ row.totalCommits) :
    CommitsAtLeast db' path (old + delta) := by
  obtain ⟨row, hrow, hle⟩ := hdelta
  rw [hrow] at hfile
  refine ⟨_, hfile, ?_⟩
  cases hlookup : db.gitFiles.lookup path with
  | none =>
    rcases hold with rfl | ⟨row', hrow', -⟩
    · simpa [fileRow] using hle
    · rw [hlookup] at hrow'
      cases hrow'
  | some row' =>
    have hle' : old ≤ row'.totalCommits := by
      rcases hold with rfl | ⟨row₁, hrow₁, hle₁⟩
      · exact Nat.zero_le _
      · rw [hlookup, Option.some_inj] at hrow₁
        rwa [hrow₁]
    exact Nat.add_le_add hle' hle

theorem commitsAtLeast_kept {db db' : Database} {path : String} {count : Nat}
    (hfile : db'.gitFiles.lookup path = overwrite fileRow (db.gitFiles.lookup path) (fileContent ks path))
    (hold : CommitsAtLeast db path count) : CommitsAtLeast db' path count := by
  cases hdelta : fileContent ks path with
  | none =>
    rw [hdelta] at hfile
    rwa [CommitsAtLeast, hfile]
  | some row => exact commitsAtLeast_overwrite hfile (.inr hold) ⟨row, hdelta, Nat.zero_le _⟩

/-- The deltas of commits keep the store coupled: a commit adds to both files whatever it adds to the pair. -/
theorem coupled_deltas {db db' : Database} (h : Coupled db) (hd : Distinct ks)
    (hfiles : ∀ path, db'.gitFiles.lookup path = overwrite fileRow (db.gitFiles.lookup path) (fileContent ks path))
    (hpairs : ∀ pair, db'.gitCoChanges.lookup pair =
      overwrite (fun stats => coChangeRow stats.write) (db.gitCoChanges.lookup pair) (pairContent policy ks pair)) :
    Coupled db' := by
  intro pair row hrow
  rw [hpairs] at hrow
  cases hdelta : pairContent policy ks pair with
  | none =>
    rw [hdelta] at hrow
    have hpair := h pair row hrow
    exact ⟨commitsAtLeast_kept (hfiles _) hpair.left, commitsAtLeast_kept (hfiles _) hpair.right, hpair.lt,
      hpair.windows⟩
  | some stats =>
    obtain ⟨ha, hb⟩ := fileContent_of_pairContent hd hdelta
    have hlt := pairContent_lt hd hdelta
    rw [hdelta] at hrow
    obtain rfl := Option.some_inj.mp hrow
    cases hold : db.gitCoChanges.lookup pair with
    | none =>
      have hzero : (coChangeRow stats.write none).count = 0 + stats.count := (Nat.zero_add _).symm
      refine ⟨?_, ?_, hlt, rfl⟩
      · rw [hzero]
        exact commitsAtLeast_overwrite (hfiles _) (.inl rfl) ha
      · rw [hzero]
        exact commitsAtLeast_overwrite (hfiles _) (.inl rfl) hb
    | some old =>
      have hpair := h pair old hold
      exact ⟨commitsAtLeast_overwrite (hfiles _) (.inr hpair.left) ha,
        commitsAtLeast_overwrite (hfiles _) (.inr hpair.right) hb, hlt, rfl⟩

end Content

section Writers

variable {policy : Policy} {db : Database}

theorem coupled_rekey {moves : List Move} (h : Coupled db) (hkeys : (moves.map Prod.fst).Nodup)
    (hapart : MovesApart db moves) : ∃ db', rekeyGitHistory db moves = some db' ∧ Coupled db' := by
  obtain ⟨db', hrun, hfiles, hpairs, -⟩ := rekeyGitHistory_spec hkeys h.pairsStored hapart
  refine ⟨db', hrun, fun q row hrow => ?_⟩
  obtain ⟨pair, hpair, hq⟩ := (hpairs q row).mp hrow
  obtain ⟨a, b, ha, hb, rfl⟩ := movedPair_eq_some.mp hq
  have hold := h pair row hpair
  have hcommits : ∀ {path target : String}, moved moves path = some target → CommitsAtLeast db path row.count →
      CommitsAtLeast db' target row.count := by
    rintro path target hmoved ⟨fileRow, hfile, hle⟩
    exact ⟨fileRow, (hfiles target fileRow).mpr ⟨path, hfile, hmoved⟩, hle⟩
  have hne : a ≠ b := by
    rintro rfl
    have hstored := h.pairsStored pair row hpair
    exact textLt_ne hold.lt (hapart _ _ a hstored.left hstored.right ha hb)
  have hlt : textLt (ordered (a, b)).1 (ordered (a, b)).2 := ordered_lt hne
  have hends : CommitsAtLeast db' (ordered (a, b)).1 row.count ∧ CommitsAtLeast db' (ordered (a, b)).2 row.count := by
    unfold ordered
    split
    · exact ⟨hcommits ha hold.left, hcommits hb hold.right⟩
    · exact ⟨hcommits hb hold.right, hcommits ha hold.left⟩
  exact ⟨hends.1, hends.2, hlt, hold.windows⟩

theorem coupled_runFull (policy : Policy) (live : List String) (listing : List Commit) :
    ∃ db, runFull policy live listing = some db ∧ Coupled db := by
  obtain ⟨db, hrun, hholds⟩ := runFull_holds policy live listing
  exact ⟨db, hrun, coupled_of_holds hholds (keysOf_distinct (prepared_nodup live listing))⟩

theorem coupled_runIncremental (policy : Policy) (h : Coupled db) (live : List String) (cutoff : Int) (full listing : List Commit) :
    ∃ db', runIncremental policy live cutoff full listing db = some db' ∧ Coupled db' := by
  unfold runIncremental
  simp only
  split
  · exact coupled_runFull policy live full
  · rename_i hno
    rw [Bool.not_eq_true] at hno
    obtain ⟨db₁, hrekey, hcoupled⟩ := coupled_rekey h nodup_movesOf (movesApart_movesOf hno)
    have hpruned : Coupled (pruneGitAuthorEvents db₁ cutoff) := hcoupled.congr rfl rfl
    obtain ⟨db', hrun, hfiles, hpairs, -⟩ :=
      writeDeltas_spec policy (pruneGitAuthorEvents db₁ cutoff) (prepared_nodup live listing)
    refine ⟨db', ?_, coupled_deltas hpruned (keysOf_distinct (prepared_nodup live listing)) hfiles hpairs⟩
    rw [hrekey]
    exact hrun

theorem lookup_removeFile_files (db : Database) (path key : String) :
    (removeFile db path).gitFiles.lookup key = if key = path then none else db.gitFiles.lookup key := by
  rw [removeFile, Table.lookup_deleteWhere]
  simp only [decide_eq_true_eq]

theorem lookup_removeFile_pairs (db : Database) (path : String) (pair : String × String) :
    (removeFile db path).gitCoChanges.lookup pair =
      if pair.1 = path ∨ pair.2 = path then none else db.gitCoChanges.lookup pair := by
  rw [removeFile, Table.lookup_deleteWhere]
  simp only [decide_eq_true_eq]

theorem coupled_removeFile (h : Coupled db) (path : String) : Coupled (removeFile db path) := by
  intro pair row hrow
  rw [lookup_removeFile_pairs] at hrow
  split at hrow
  · cases hrow
  · rename_i hends
    have hpair := h pair row hrow
    have hcommits : ∀ key, key ≠ path → CommitsAtLeast db key row.count →
        CommitsAtLeast (removeFile db path) key row.count := by
      rintro key hne ⟨fileRow, hfile, hle⟩
      exact ⟨fileRow, by rw [lookup_removeFile_files, if_neg hne, hfile], hle⟩
    exact ⟨hcommits _ (fun h => hends (.inl h)) hpair.left, hcommits _ (fun h => hends (.inr h)) hpair.right,
      hpair.lt, hpair.windows⟩

end Writers

section Calls

/-- No pass fails on a coupled store, and each leaves a coupled one. -/
theorem coupled_index {index : Index} (h : Coupled index.db) (repo : Repo) (excludes : Excludes) (mode : IndexMode) :
    ∃ index', gitHistoryIndexWithOptions index repo excludes mode = some index' ∧ Coupled index'.db := by
  have hfull : ∃ index', (runFull excludes.policy repo.live repo.log).map
      (fun db => (⟨db, some repo.head, some excludes.fingerprint⟩ : Index)) = some index' ∧ Coupled index'.db := by
    obtain ⟨db, hrun, hdb⟩ := coupled_runFull excludes.policy repo.live repo.log
    exact ⟨_, by rw [hrun]; rfl, hdb⟩
  unfold gitHistoryIndexWithOptions
  simp only
  split
  · exact hfull
  · exact hfull
  · split
    · exact hfull
    · split
      · exact ⟨_, rfl, h.congr rfl rfl⟩
      · rename_i lastSha _ _ _ _
        split
        · obtain ⟨db, hrun, hdb⟩ := coupled_runIncremental excludes.policy h repo.live
            (historyWindowCutoff repo.epoch) repo.log (repo.logSince lastSha)
          exact ⟨_, by rw [hrun]; rfl, hdb⟩
        · exact hfull

theorem coupled_call {index : Index} (h : Coupled index.db) (call : Call) : Coupled (index.call call).db := by
  cases call with
  | index repo excludes mode =>
    obtain ⟨index', hrun, hindex'⟩ := coupled_index h repo excludes mode
    rw [Index.call, hrun]
    exact hindex'
  | remove path => exact coupled_removeFile h path

theorem coupled_run (calls : List Call) : ∀ (index : Index), Coupled index.db → Coupled (index.run calls).db := by
  induction calls with
  | nil => exact fun index h => h
  | cons call calls ih => exact fun index h => ih (index.call call) (coupled_call h call)

/-- In every state between transactions, both ends of a pair row are scored files with at least the pair's
commits; a file without a row is in no pair. -/
theorem coupled_files_are_scored (calls : List Call) :
    Scored (Index.empty.run calls).db ∧
      ∀ path, (Index.empty.run calls).db.gitFiles.lookup path = none →
        ∀ a b row, (Index.empty.run calls).db.gitCoChanges.lookup (a, b) = some row → a ≠ path ∧ b ≠ path := by
  have hscored := (coupled_run calls Index.empty coupled_empty).scored
  refine ⟨hscored, fun path hnone a b row hrow => ?_⟩
  obtain ⟨⟨ra, ha, -⟩, ⟨rb, hb, -⟩⟩ := hscored a b row hrow
  constructor
  · rintro rfl
    rw [hnone] at ha
    cases ha
  · rintro rfl
    rw [hnone] at hb
    cases hb

end Calls

end Git
end CodeSage
