import CodeSage.Git.Store

/-!
# CodeSage.Git.Indexer

One indexing pass over a listing of commits (`crates/graph/src/git_history/indexer.rs`). A commit's
changes are the paths its diff names; their line counts feed only `churn_score` and are left out. The two
glob sets are the parameters of `Policy`, and the paths of HEAD's tree are the parameter `live`.
-/

namespace CodeSage
namespace Git

open Lib

structure Commit where
  sha : String
  author : String
  timestamp : Int
  subject : List Char
  changes : List String
  /-- `(old, new)` for every rename git detected in this commit -/
  renames : List (String × String)
  deriving DecidableEq, Repr

structure Policy where
  /-- `is_excluded` -/
  excluded : String → Bool
  testLike : String → Bool

def MAX_FILES_PER_COMMIT_FOR_COCHANGE : Nat := 30

def RECURRENCE_WINDOW_SECS : Int := 90 * 86400

def RECURRENCE_RING : Int := 64

/-- `(HISTORY_WINDOW_DAYS * SECONDS_PER_DAY) as i64` -/
def HISTORY_WINDOW_SECS : Int := 730 * 86400

/-- `history_window_cutoff` -/
def historyWindowCutoff (anchor : Int) : Int := max (anchor - HISTORY_WINDOW_SECS) 0

/-- `recurrence_window` -/
def recurrenceWindow (timestamp : Int) : Nat :=
  ((max timestamp 0 / RECURRENCE_WINDOW_SECS) % RECURRENCE_RING).toNat

/-- `window_bit` -/
def windowBit (timestamp : Int) : UInt64 := 1 <<< (recurrenceWindow timestamp).toUInt64

def toAsciiLowercase (s : List Char) : List Char := s.map Char.toLower

def startsWith (s : List Char) (text : String) : Bool := text.toList.isPrefixOf s

def contains (s : List Char) (text : String) : Bool := s.tails.any text.toList.isPrefixOf

/-- `is_fix_commit` -/
def isFixCommit (subject : List Char) : Bool :=
  let s := toAsciiLowercase subject
  startsWith s "fix:" || startsWith s "fix(" || startsWith s "bugfix:" ||
    startsWith s "hotfix:" || contains s " fix " || contains s " fixes " ||
    contains s "fixes #" || contains s "fixes gh-" || contains s "closes #"

/-- `soft_skip` -/
def softSkip (subject : List Char) : Bool :=
  let s := toAsciiLowercase subject
  let isChore := startsWith s "chore:" || startsWith s "chore(" || startsWith s "build:" ||
    startsWith s "build(" || startsWith s "ci:" || startsWith s "style:" ||
    startsWith s "docs:"
  let rescued := contains s "migrate" || contains s "refactor" || contains s "adopt" ||
    contains s "deprecate" || contains s "upgrade"
  isChore && !rescued

/-- `merge_same_path`: a path keeps its first place. -/
def mergeSamePath (changes : List String) : List String :=
  changes.foldl (fun merged path => if path ∈ merged then merged else merged ++ [path]) []

/-- The current name of each superseded path. -/
abbrev Successor := Table String String

def Successor.current (successor : Successor) (path : String) : String := (successor.lookup path).getD path

def Successor.move (successor : Successor) (m : String × String) : Successor :=
  if m.1 = m.2 then successor.erase m.1 else successor.insert m.1 m.2

/-- The renames of one commit, all resolved against the state before it. -/
def Successor.follow (successor : Successor) (renames : List (String × String)) : Successor :=
  (renames.map fun r => (r.1, successor.current r.2)).foldl Successor.move successor

/-- `follow_renames`; children stand before parents. -/
def followRenames (policy : Policy) : List Commit → Successor → List Commit × Successor
  | [], successor => ([], successor)
  | commit :: commits, successor =>
    let keyed := (commit.changes.filter fun path => !policy.excluded path).map successor.current
    let rest := followRenames policy commits (successor.follow commit.renames)
    ({ commit with changes := mergeSamePath keyed } :: rest.1, rest.2)

/-- The rename chain of a path, up to the first path HEAD holds. -/
def chase (live : List String) (successor : Successor) : Nat → String → String
  | 0, path => path
  | n + 1, path =>
    match successor.lookup path with
    | none => path
    | some next => if next ∈ live then next else chase live successor n next

/-- `none` for a change that stays where it is -/
def remapPath (live : List String) (successor : Successor) (path : String) : Option String :=
  if path ∈ live then none
  else
    let target := chase live successor successor.keys.length path
    if target ∈ live then some target else none

/-- `remap_dead_paths` -/
def remapDeadPaths (live : List String) (commits : List Commit) (successor : Successor) : List Commit :=
  if successor.keys.isEmpty then commits
  else commits.map fun commit =>
    if commit.changes.any fun path => (remapPath live successor path).isSome then
      { commit with changes := mergeSamePath (commit.changes.map fun path => (remapPath live successor path).getD path) }
    else commit

/-- `filter_kept` -/
def filterKept (policy : Policy) (commit : Commit) : Option (List String) :=
  if softSkip commit.subject then none
  else
    let kept := commit.changes.filter fun path => !policy.excluded path
    if kept.isEmpty then none else some kept

structure PairStats where
  count : Nat
  firstObservedAt : Option Int
  lastObservedAt : Option Int
  windowMask : UInt64
  deriving DecidableEq, Repr

def PairStats.write (stats : PairStats) : CoChangeWrite :=
  ⟨stats.count, stats.windowMask, stats.firstObservedAt, stats.lastObservedAt⟩

structure Totals where
  files : Table String GitFileRow
  pairs : Table (String × String) PairStats

/-- One commit more for a file. -/
def bumpFile (timestamp : Int) (isFix : Bool) (old : Option GitFileRow) : GitFileRow :=
  let stats := old.getD ⟨0, 0, none⟩
  { fixCount := if isFix then stats.fixCount + 1 else stats.fixCount
    totalCommits := stats.totalCommits + 1
    lastCommitAt := match stats.lastCommitAt with
      | none => some timestamp
      | some t => if t < timestamp then some timestamp else some t }

/-- One shared commit more for a pair. -/
def bumpPair (timestamp : Int) (old : Option PairStats) : PairStats :=
  let pair := old.getD ⟨0, none, none, 0⟩
  { count := pair.count + 1
    windowMask := pair.windowMask ||| windowBit timestamp
    firstObservedAt := match pair.firstObservedAt with
      | none => some timestamp
      | some t => if t > timestamp then some timestamp else some t
    lastObservedAt := match pair.lastObservedAt with
      | none => some timestamp
      | some t => if t < timestamp then some timestamp else some t }

/-- `kept[i]` and `kept[j]` for `i < j` -/
def pairsOf : List String → List (String × String)
  | [] => []
  | a :: rest => rest.map (fun b => (a, b)) ++ pairsOf rest

def ordered (pair : String × String) : String × String := if textLt pair.1 pair.2 then pair else (pair.2, pair.1)

/-- The pairs a commit counts for; test-test pairs are left out. -/
def admittedPairs (policy : Policy) (kept : List String) : List (String × String) :=
  if kept.length ≤ MAX_FILES_PER_COMMIT_FOR_COCHANGE then
    ((pairsOf kept).filter fun p => !(policy.testLike p.1 && policy.testLike p.2)).map ordered
  else []

/-- `accumulate` -/
def accumulate (policy : Policy) (totals : Totals) (commit : Commit) (kept : List String) : Totals :=
  { files := kept.foldl (fun files path => files.put path (bumpFile commit.timestamp (isFixCommit commit.subject)))
      totals.files
    pairs := (admittedPairs policy kept).foldl (fun pairs pair => pairs.put pair (bumpPair commit.timestamp))
      totals.pairs }

def accumulateAll (policy : Policy) (commits : List Commit) : Totals :=
  commits.foldl (fun totals commit =>
    match filterKept policy commit with
    | none => totals
    | some kept => accumulate policy totals commit kept) ⟨∅, ∅⟩

/-- `write_author_events` -/
def writeAuthorEvents (policy : Policy) (db : Database) (commits : List Commit) : Database :=
  commits.foldl (fun db commit =>
    match filterKept policy commit with
    | none => db
    | some kept => kept.foldl (fun db path =>
        upsertGitAuthorEvent db path commit.sha ⟨commit.author, commit.timestamp⟩) db) db

/-- `run_full` on what `git log` listed. `none` is an error of a statement, and is rolled back. -/
def runFull (policy : Policy) (live : List String) (listing : List Commit) : Option Database := do
  let followed := followRenames policy listing ∅
  let commits := remapDeadPaths live followed.1 followed.2
  let totals := accumulateAll policy commits
  let db := writeAuthorEvents policy Database.empty commits
  let db := totals.files.rows.foldl (fun db row => upsertGitFile db row.1 row.2) db
  totals.pairs.rows.foldlM (fun db row => upsertGitCoChangeFull db row.1 row.2.write) db

/-- The moves of the stored rows; a rename from or onto an excluded path drops them. -/
def movesOf (policy : Policy) (successor : Successor) : List Move :=
  successor.rows.map fun r =>
    (r.1, if !policy.excluded r.1 && !policy.excluded r.2 then some r.2 else none)

/-- The loop of `rekey_diverges_from_full_scan`; `recorded` holds the successors of the recorded sources. -/
def divergesFrom (policy : Policy) (db : Database) (sources : List String) : List Move → List String → Bool
  | [], _ => false
  | (_, none) :: moves, recorded => divergesFrom policy db sources moves recorded
  | (source, some target) :: moves, recorded =>
    if policy.testLike source != policy.testLike target then true
    else if !sources.contains target && (db.gitFiles.lookup target).isSome then true
    else if (db.gitFiles.lookup source).isSome then
      if recorded.contains target then true
      else divergesFrom policy db sources moves (target :: recorded)
    else divergesFrom policy db sources moves recorded

/-- `rekey_diverges_from_full_scan` -/
def rekeyDivergesFromFullScan (policy : Policy) (db : Database) (moves : List Move) : Bool :=
  divergesFrom policy db (moves.map Prod.fst) moves []

/-- `run_incremental` on what `git log` listed for the range; `full` is the listing a rescan reads. -/
def runIncremental (policy : Policy) (live : List String) (cutoff : Int) (full listing : List Commit)
    (db : Database) : Option Database := do
  let followed := followRenames policy listing ∅
  let commits := remapDeadPaths live followed.1 followed.2
  let moves := movesOf policy followed.2
  if rekeyDivergesFromFullScan policy db moves then runFull policy live full
  else
    let totals := accumulateAll policy commits
    let db ← rekeyGitHistory db moves
    let db := pruneGitAuthorEvents db cutoff
    let db := writeAuthorEvents policy db commits
    let db := totals.files.rows.foldl (fun db row => incrGitFile db row.1 row.2) db
    totals.pairs.rows.foldlM (fun db row => incrGitCoChangeFull db row.1 row.2.write) db

end Git
end CodeSage
