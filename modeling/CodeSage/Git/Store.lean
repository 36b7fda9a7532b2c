import CodeSage.Lib.Table
import CodeSage.Lib.Utf8

/-!
# CodeSage.Git.Store

The git history tables and the statements that write them (`crates/storage/src/db/git_hist.rs`,
`git_authors.rs`). The columns `churn_score` and `weight` are floating point and are left out, and
counters are natural numbers: a history of fewer than `2 ^ 32` commits wraps none of them.
-/

namespace CodeSage
namespace Git

open Lib

instance lawfulBEqPair : LawfulBEq (String × String) := inferInstanceAs (LawfulBEq (String × String))

structure GitFileRow where
  fixCount : Nat
  totalCommits : Nat
  lastCommitAt : Option Int
  deriving DecidableEq, Repr

structure CoChangeRow where
  count : Nat
  lastObservedAt : Option Int
  firstObservedAt : Option Int
  windowMask : UInt64
  windows : Nat
  deriving DecidableEq, Repr

structure CoChangeWrite where
  count : Nat
  windowMask : UInt64
  firstObservedAt : Option Int
  lastObservedAt : Option Int
  deriving DecidableEq, Repr

structure AuthorEvent where
  author : String
  committedAt : Int
  deriving DecidableEq, Repr

structure Database where
  /-- `path` -/
  gitFiles : Table String GitFileRow
  /-- `(file_a, file_b)` with `file_a < file_b` -/
  gitCoChanges : Table (String × String) CoChangeRow
  /-- `(file_path, commit_sha)` -/
  authorEvents : Table (String × String) AuthorEvent

def countOnes (mask : UInt64) : Nat := (List.range 64).countP fun i => mask.toNat.testBit i

/-- `windows_of` -/
def windowsOf (mask : UInt64) : Nat := max (countOnes mask) 1

/-- `CASE WHEN excluded IS NULL THEN old WHEN old IS NULL THEN excluded ELSE MAX(old, excluded) END` -/
def newest : Option Int → Option Int → Option Int
  | old, none => old
  | none, some t => some t
  | some o, some t => some (max o t)

/-- `order_co_change_pair`; a self-pair is an error. -/
def orderCoChangePair (a b : String) : Option (String × String) :=
  if a = b then none else if textLt a b then some (a, b) else some (b, a)

def fileRow (w : GitFileRow) : Option GitFileRow → GitFileRow
  | none => w
  | some old => ⟨old.fixCount + w.fixCount, old.totalCommits + w.totalCommits, newest old.lastCommitAt w.lastCommitAt⟩

/-- `incr_git_file` -/
def incrGitFile (db : Database) (path : String) (w : GitFileRow) : Database :=
  { db with gitFiles := db.gitFiles.put path (fileRow w) }

/-- `upsert_git_file` -/
def upsertGitFile (db : Database) (path : String) (w : GitFileRow) : Database :=
  { db with gitFiles := db.gitFiles.put path fun _ => w }

def CoChangeWrite.row (w : CoChangeWrite) : CoChangeRow :=
  ⟨w.count, w.lastObservedAt, w.firstObservedAt, w.windowMask, windowsOf w.windowMask⟩

/-- `incr_git_co_change_full`: an unknown span of the stored row stays unknown. -/
def coChangeRow (w : CoChangeWrite) : Option CoChangeRow → CoChangeRow
  | none => w.row
  | some old =>
    let firstObservedAt := match old.firstObservedAt, w.firstObservedAt with
      | none, _ => none
      | some o, none => some o
      | some o, some t => some (min o t)
    let windowMask := if old.firstObservedAt.isNone then old.windowMask else old.windowMask ||| w.windowMask
    ⟨old.count + w.count, newest old.lastObservedAt w.lastObservedAt, firstObservedAt, windowMask, windowsOf windowMask⟩

def incrGitCoChangeFull (db : Database) (pair : String × String) (w : CoChangeWrite) : Option Database := do
  let key ← orderCoChangePair pair.1 pair.2
  return { db with gitCoChanges := db.gitCoChanges.put key (coChangeRow w) }

/-- `upsert_git_co_change_full` -/
def upsertGitCoChangeFull (db : Database) (pair : String × String) (w : CoChangeWrite) : Option Database := do
  let key ← orderCoChangePair pair.1 pair.2
  return { db with gitCoChanges := db.gitCoChanges.put key fun _ => w.row }

/-- `merge_git_co_change`: an unknown span on either side makes the merged span unknown. -/
def mergedRow (w : CoChangeWrite) : Option CoChangeRow → CoChangeRow
  | none => w.row
  | some old =>
    let unknown := old.firstObservedAt.isNone || w.firstObservedAt.isNone
    let firstObservedAt := match old.firstObservedAt, w.firstObservedAt with
      | some o, some t => some (min o t)
      | _, _ => none
    let windowMask := if unknown then 0 else old.windowMask ||| w.windowMask
    ⟨old.count + w.count, newest old.lastObservedAt w.lastObservedAt, firstObservedAt, windowMask, windowsOf windowMask⟩

def mergeGitCoChange (db : Database) (a b : String) (w : CoChangeWrite) : Option Database := do
  let key ← orderCoChangePair a b
  return { db with gitCoChanges := db.gitCoChanges.put key (mergedRow w) }

/-- `upsert_git_author_event` -/
def upsertGitAuthorEvent (db : Database) (path sha : String) (event : AuthorEvent) : Database :=
  { db with authorEvents := db.authorEvents.put (path, sha) fun _ => event }

/-- `prune_git_author_events` -/
def pruneGitAuthorEvents (db : Database) (cutoff : Int) : Database :=
  { db with authorEvents := db.authorEvents.deleteRows fun event => event.committedAt < cutoff }

/-- `clear_git_data` and `reset_git_authors` -/
def Database.empty : Database := ⟨∅, ∅, ∅⟩

/-- A rename that the stored rows follow, or a path whose rows are dropped. -/
abbrev Move := String × Option String

/-- The path a stored row moves to. -/
def moved (moves : List Move) (path : String) : Option String :=
  match moves.find? fun m => m.1 = path with
  | some m => m.2
  | none => some path

def CoChangeRow.write (row : CoChangeRow) : CoChangeWrite :=
  ⟨row.count, row.windowMask, row.firstObservedAt, row.lastObservedAt⟩

/-- The rows of the moved paths, each read once. -/
def movedPairRows (db : Database) (moves : List Move) : List ((String × String) × CoChangeRow) :=
  moves.foldl (fun seen m =>
    seen ++ (db.gitCoChanges.rows.filter fun row =>
      (row.1.1 = m.1 ∨ row.1.2 = m.1) ∧ row.1 ∉ seen.map Prod.fst)) []

def movedFileRows (db : Database) (moves : List Move) : List (String × GitFileRow) :=
  moves.filterMap fun m => (db.gitFiles.lookup m.1).map fun row => (m.1, row)

/-- The part of `rekey_git_author_events` that reads. -/
def movedEvents (db : Database) (moves : List Move) : List ((String × String) × AuthorEvent) :=
  moves.flatMap fun m =>
    match m.2 with
    | none => []
    | some target => (db.authorEvents.rows.filter fun e => e.1.1 = m.1).map fun e => ((target, e.1.2), e.2)

def isMoved (moves : List Move) (path : String) : Bool := moves.any fun m => m.1 = path

/-- What `rekey_git_history` deletes before it writes the moved rows. -/
def deleteMoved (db : Database) (moves : List Move) : Database :=
  { db with
    gitFiles := db.gitFiles.deleteWhere (isMoved moves)
    gitCoChanges := db.gitCoChanges.deleteWhere fun pair => isMoved moves pair.1 || isMoved moves pair.2 }

/-- One moved pair row; a pair whose ends land on one path is dropped. -/
def movePair (moves : List Move) (db : Database) (row : (String × String) × CoChangeRow) : Option Database :=
  match moved moves row.1.1, moved moves row.1.2 with
  | some a, some b => if a ≠ b then mergeGitCoChange db a b row.2.write else some db
  | _, _ => some db

def moveFile (moves : List Move) (db : Database) (row : String × GitFileRow) : Database :=
  match moved moves row.1 with
  | some target => incrGitFile db target row.2
  | none => db

def rekeyGitAuthorEvents (moves : List Move) (db : Database) : Database :=
  let kept := db.authorEvents.deleteWhere fun key => isMoved moves key.1
  { db with
    authorEvents := Table.putAll (fun event old => old.getD event) kept (movedEvents db moves) }

/-- `rekey_git_history`: the moves apply as one substitution. `none` is an error, and is rolled back. -/
def rekeyGitHistory (db : Database) (moves : List Move) : Option Database :=
  if moves.isEmpty then some db
  else do
    let fileRows := movedFileRows db moves
    let pairRows := movedPairRows db moves
    let cleared := deleteMoved db moves
    let filed := fileRows.foldl (moveFile moves) cleared
    let paired ← pairRows.foldlM (movePair moves) filed
    return rekeyGitAuthorEvents moves paired

end Git
end CodeSage
