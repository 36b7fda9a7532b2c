import CodeSage.Git.Store
import CodeSage.Lib.Session

/-!
# CodeSage.Git.RekeySql

`rekey_git_history` statement by statement (`crates/storage/src/db/git_hist.rs`, `git_authors.rs`): the rows of
the superseded paths are read, deleted and written back under a savepoint, and any statement may fail. The
map `targets` is a hash map, so its keys come in some order: `targets` is the list of moves in that order.
-/

namespace CodeSage
namespace Git

open Lib

abbrev Sql (α : Type) := Db Database Unit α

/-- `prepare_cached` -/
def prepare : Sql Unit := Db.query fun _ => some ()

/-- The rows read so far: those of `git_files`, and those of `git_co_changes`, each pair once. -/
abbrev ReadRows := List (String × GitFileRow) × List ((String × String) × CoChangeRow)

/-- The rows of one superseded path. -/
def readMove (read : ReadRows) (m : Move) : Sql ReadRows := do
  let row ← Db.query fun db => some (db.gitFiles.lookup m.1)
  let pairs ← Db.query fun db => some (db.gitCoChanges.rows.filter fun row => row.1.1 = m.1 ∨ row.1.2 = m.1)
  pure (read.1 ++ (row.map fun row => (m.1, row)).toList,
    read.2 ++ pairs.filter fun row => row.1 ∉ read.2.map Prod.fst)

def deleteMove (m : Move) : Sql Unit := do
  Db.execute fun db => some { db with gitFiles := db.gitFiles.deleteWhere fun path => path = m.1 }
  Db.execute fun db =>
    some { db with gitCoChanges := db.gitCoChanges.deleteWhere fun pair => pair.1 = m.1 || pair.2 = m.1 }

/-- `incr_git_file` of a row read, under its successor. -/
def writeFile (moves : List Move) (row : String × GitFileRow) : Sql Unit :=
  match moved moves row.1 with
  | some target => Db.execute fun db => some (incrGitFile db target row.2)
  | none => pure ()

/-- `INSERT … ON CONFLICT … RETURNING window_mask` of `merge_git_co_change`; a conflict leaves `windows`. -/
def upsertedRow (w : CoChangeWrite) : Option CoChangeRow → CoChangeRow
  | none => w.row
  | some old => { mergedRow w (some old) with windows := old.windows }

/-- `merge_git_co_change` -/
def mergePair (a b : String) (w : CoChangeWrite) : Sql Unit :=
  match orderCoChangePair a b with
  | none => throw .statement
  | some key => do
    prepare
    let mask ← Db.statement fun db =>
      let row := upsertedRow w (db.gitCoChanges.lookup key)
      some (row.windowMask, { db with gitCoChanges := db.gitCoChanges.insert key row })
    prepare
    Db.execute fun db => some { db with
      gitCoChanges := db.gitCoChanges.mapRows fun k row =>
        if k = key then { row with windows := windowsOf mask } else row }

def writePair (moves : List Move) (row : (String × String) × CoChangeRow) : Sql Unit :=
  match moved moves row.1.1, moved moves row.1.2 with
  | some a, some b => if a ≠ b then mergePair a b row.2.write else pure ()
  | _, _ => pure ()

/-- The author events of one superseded path that has a successor. -/
def readEvents (read : List ((String × String) × AuthorEvent)) (m : Move) :
    Sql (List ((String × String) × AuthorEvent)) :=
  match m.2 with
  | none => pure read
  | some target => do
    let events ← Db.query fun db => some (db.authorEvents.rows.filter fun e => e.1.1 = m.1)
    pure (read ++ events.map fun e => ((target, e.1.2), e.2))

/-- `rekey_git_author_events` -/
def rekeyEvents (moves : List Move) : Sql Unit := do
  prepare
  let events ← Prog.fold readEvents [] moves
  prepare
  Prog.each (fun m => Db.execute fun db =>
    some { db with authorEvents := db.authorEvents.deleteWhere fun key => key.1 = m.1 }) moves
  prepare
  Prog.each (fun e => Db.execute fun db =>
    some { db with authorEvents := db.authorEvents.put e.1 fun old => old.getD e.2 }) events

/-- `rekey_git_history_inner` -/
def rekeyInner (targets moves : List Move) : Sql Unit := do
  prepare
  let read ← Prog.fold readMove ([], []) targets
  prepare
  prepare
  Prog.each deleteMove targets
  Prog.each (writeFile targets) read.1
  Prog.each (writePair targets) read.2
  rekeyEvents moves

/-- `rekey_git_history` -/
def rekeySql (targets moves : List Move) : Sql Unit :=
  if moves.isEmpty then pure () else Db.savepoint (rekeyInner targets moves)

end Git
end CodeSage
