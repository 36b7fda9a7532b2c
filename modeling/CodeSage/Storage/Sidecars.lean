import CodeSage.Lib.Session
import CodeSage.Lib.Steps

/-!
# CodeSage.Storage.Sidecars

The chunk table of one model with its FTS rows and its path rows, and the calls of one handle that write them
(`crates/storage/src/db/semantic.rs`, `crates/storage/src/schema.rs`, `crates/storage/src/db/mod.rs`). The
handle remembers a verdict on the sidecars across transactions (`SidecarMemo`).

Every statement may fail. A binary that does not keep the sidecars may have written the tables before: only
the chunk ids are given out by this table's own counter.
-/

namespace CodeSage
namespace Storage

open Lib Lib.Prog Lib.Db

structure ChunkText where
  content : String
  filePath : String
  language : String
  startLine : Nat
  endLine : Nat
  deriving DecidableEq, Repr

/-- A vec0 row. The path is bound by every writer, so the column is never NULL. -/
structure ChunkRow where
  id : Int
  text : ChunkText
  embedding : List UInt8
  deriving DecidableEq, Repr

structure FtsRow where
  rowid : Int
  text : ChunkText
  deriving DecidableEq, Repr

structure PathRow where
  id : Int
  filePath : String
  deriving DecidableEq, Repr

/-- The tables of one model; `none` is a table that does not exist. -/
structure ChunkTables where
  /-- the last id the AUTOINCREMENT counter of the vec0 table gave out -/
  seq : Int
  chunks : List ChunkRow
  fts : Option (List FtsRow)
  paths : Option (List PathRow)
  deriving DecidableEq, Repr

namespace ChunkTables

def chunkIds (t : ChunkTables) : List Int := t.chunks.map (·.id)

def ftsRows (t : ChunkTables) : List FtsRow := t.fts.getD []

def pathRows (t : ChunkTables) : List PathRow := t.paths.getD []

/-- What the probe of the FTS sidecar answers. -/
def ftsInSync (t : ChunkTables) : Bool :=
  t.fts.any fun fts => fts.length = t.chunks.length && t.chunks.all fun c => fts.any fun f => f.rowid = c.id

end ChunkTables

structure SidecarSync where
  ftsByRowid : Bool
  deriving DecidableEq, Repr

/-- `SidecarMemo`, for the one chunk table -/
structure SidecarMemo where
  sync : Option SidecarSync := none
  uncommittedRebuild : Bool := false
  deriving DecidableEq, Repr

abbrev Handle := Session ChunkTables SidecarMemo

abbrev Sql (α : Type) := Db ChunkTables SidecarMemo α

inductive FtsSidecarHealth where
  | inSync
  | diverged (chunkRows ftsRows : Nat)
  deriving DecidableEq, Repr

def setUncommittedRebuild (b : Bool) : Sql Unit :=
  update fun h => h.setMemory { h.memory with uncommittedRebuild := b }

/-- `fts_rowids_match` -/
def ftsRowidsMatch (t : ChunkTables) : Option Bool :=
  t.fts.map fun fts => t.chunks.all fun c => fts.any fun f => f.rowid = c.id

/-- `fts_sidecar_counts` -/
def ftsSidecarCounts : Sql (Nat × Nat × Bool) := do
  let chunkCount ← query fun t => some t.chunks.length
  let ftsCount ← query fun t => t.fts.map List.length
  if chunkCount = ftsCount then do
    let inSync ← query ftsRowidsMatch
    pure (chunkCount, ftsCount, inSync)
  else pure (chunkCount, ftsCount, false)

/-- `fts_sidecar_health` -/
def ftsSidecarHealth : Sql FtsSidecarHealth := do
  let counts ← ftsSidecarCounts
  pure (if counts.2.2 then .inSync else .diverged counts.1 counts.2.1)

/-- `schema::repair_fts_sidecar` -/
def rebuildFtsSidecar : Sql Unit :=
  savepointBatch do
    execute fun t => t.fts.map fun _ => { t with fts := some [] }
    execute fun t => t.fts.map fun fts => { t with fts := some (fts ++ t.chunks.map fun c => ⟨c.id, c.text⟩) }

/-- `path_sidecar_in_sync` -/
def pathSidecarInSync : Sql Bool := do
  let chunkCount ← query fun t => some t.chunks.length
  let pathCount ← query fun t => t.paths.map List.length
  if chunkCount = pathCount then
    query fun t => t.paths.map fun paths => t.chunks.all fun c => paths.any fun p => p.id = c.id
  else pure false

/-- `rebuild_path_sidecar` -/
def rebuildPathSidecar : Sql Unit :=
  savepointBatch do
    execute fun t => t.paths.map fun _ => { t with paths := some [] }
    execute fun t => t.paths.map fun paths =>
      { t with paths := some (paths ++ t.chunks.map fun c => ⟨c.id, c.text.filePath⟩) }

/-- `sync_path_sidecar`: whether a rebuild ran -/
def syncPathSidecar : Sql Bool := do
  execute fun t => some { t with paths := some t.pathRows }
  let inSync ← pathSidecarInSync
  if inSync then pure false
  else do
    rebuildPathSidecar
    pure true

/-- The probe of `ensure_sidecars`, unless its caller holds the verdict -/
def ftsVerdict : Option Bool → Sql Bool
  | some inSync => pure inSync
  | none => do
    let ftsExists ← query fun t => some t.fts.isSome
    if ftsExists then do
      let health ← ftsSidecarHealth
      pure (health = .inSync)
    else pure false

/-- `mark_sidecars_verified`, unless a rebuild may still be rolled back -/
def rememberVerdict (ftsByRowid : Bool) : Sql Unit :=
  update fun h =>
    if h.memory.uncommittedRebuild then h else h.setMemory { h.memory with sync := some ⟨ftsByRowid⟩ }

/-- `ensure_sidecars` past the memo -/
def verifySidecars (ftsInSync : Option Bool) (committed : Bool) : Sql SidecarSync := do
  update fun h => if committed then h.setMemory { h.memory with uncommittedRebuild := false } else h
  let rebuilt ← syncPathSidecar
  update fun h => if rebuilt && !committed then h.setMemory { h.memory with uncommittedRebuild := true } else h
  let ftsByRowid ← ftsVerdict ftsInSync
  rememberVerdict ftsByRowid
  pure ⟨ftsByRowid⟩

def ensureSidecars (ftsInSync : Option Bool) : Sql SidecarSync := do
  let h ← state
  match h.memory.sync with
  | some sync => pure sync
  | none => verifySidecars ftsInSync h.isAutocommit

/-- `DELETE FROM chunks WHERE id`: the number of rows deleted -/
def deleteChunk (id : Int) (t : ChunkTables) : Option (Nat × ChunkTables) :=
  some ((t.chunks.filter (·.id = id)).length, { t with chunks := t.chunks.filter (·.id ≠ id) })

def deleteChunks : List Int → Sql Nat
  | [] => pure 0
  | id :: ids => do
    let n ← statement (deleteChunk id)
    let count ← deleteChunks ids
    pure (n + count)

def deletePaths (filePath : String) (t : ChunkTables) : Option ChunkTables :=
  t.paths.map fun paths => { t with paths := some (paths.filter (·.filePath ≠ filePath)) }

def deleteFtsRow (id : Int) (t : ChunkTables) : Option ChunkTables :=
  t.fts.map fun fts => { t with fts := some (fts.filter (·.rowid ≠ id)) }

def deleteFtsRows (filePath : String) (t : ChunkTables) : Option ChunkTables :=
  t.fts.map fun fts => { t with fts := some (fts.filter (·.text.filePath ≠ filePath)) }

def deleteVectors (filePath : String) (ids : List Int) : Sql Nat :=
  if ids.isEmpty then pure 0
  else do
    let count ← deleteChunks ids
    execute (deletePaths filePath)
    pure count

def deleteFts (filePath : String) (ids : List Int) : Option SidecarSync → Sql Unit
  | none => pure ()
  | some sync =>
    if sync.ftsByRowid then each (fun id => execute (deleteFtsRow id)) ids
    else execute (deleteFtsRows filePath)

def deleteChunkRowsForPath (filePath : String) (fts : Option SidecarSync) : Sql Nat := do
  let ids ← query fun t => t.paths.map fun paths => (paths.filter (·.filePath = filePath)).map (·.id)
  let count ← deleteVectors filePath ids
  deleteFts filePath ids fts
  pure count

def deleteChunksForFile (filePath : String) : Sql Nat := do
  let sync ← ensureSidecars none
  savepoint (deleteChunkRowsForPath filePath (some sync))

/-- One `(content, start_line, end_line, embedding)` of `insert_chunks`, the vector as its bytes -/
structure Chunk where
  content : String
  startLine : Nat
  endLine : Nat
  embedding : List UInt8

def Chunk.text (c : Chunk) (filePath language : String) : ChunkText :=
  ⟨c.content, filePath, language, c.startLine, c.endLine⟩

/-- The vec0 insert, with `last_insert_rowid` -/
def insertVec (text : ChunkText) (embedding : List UInt8) (t : ChunkTables) : Option (Int × ChunkTables) :=
  some (t.seq + 1, { t with seq := t.seq + 1, chunks := t.chunks ++ [⟨t.seq + 1, text, embedding⟩] })

/-- A rowid that is taken breaks the constraint. -/
def insertFts (rowid : Int) (text : ChunkText) (t : ChunkTables) : Option ChunkTables :=
  t.fts.bind fun fts =>
    if fts.any (·.rowid = rowid) then none else some { t with fts := some (fts ++ [⟨rowid, text⟩]) }

def insertPath (id : Int) (filePath : String) (t : ChunkTables) : Option ChunkTables :=
  t.paths.bind fun paths =>
    if paths.any (·.id = id) then none else some { t with paths := some (paths ++ [⟨id, filePath⟩]) }

def insertChunk (filePath language : String) (c : Chunk) : Sql Unit := do
  let rowid ← statement (insertVec (c.text filePath language) c.embedding)
  execute (insertFts rowid (c.text filePath language))
  execute (insertPath rowid filePath)

/-- The three `prepare` calls, which fail on a missing table -/
def prepareInserts : Sql Unit := do
  query fun _ => some ()
  query fun t => t.fts.map fun _ => ()
  query fun t => t.paths.map fun _ => ()

def insertChunks (filePath language : String) (chunks : List Chunk) : Sql Unit := do
  let _ ← ensureSidecars none
  savepoint (prepareInserts >>= fun _ => each (insertChunk filePath language) chunks)

/-- The rebuild of `Database::repair_fts_sidecar` once the probe found the sidecar diverged -/
def repairDiverged : Sql Unit := do
  update fun h => if h.isAutocommit then h else h.setMemory { h.memory with uncommittedRebuild := true }
  rebuildFtsSidecar

/-- `Database::repair_fts_sidecar` -/
def repairFtsSidecar : Sql Unit := do
  let health ← ftsSidecarHealth
  if health = .inSync then pure () else repairDiverged

/-- `BEGIN` fails inside a transaction. -/
def beginBatch : Sql Unit := do
  send
  let h ← state
  if h.isAutocommit then update Session.opened else throw .statement

/-- `COMMIT`, which needs a transaction. -/
def commit : Sql Unit := do
  send
  let h ← state
  if h.isAutocommit then throw .statement else update fun h => { h with saved := none }

/-- The end of a batch whose closure returned an error; outside a transaction `ROLLBACK` only fails. -/
def abandonBatch : Sql Unit := update Session.rollback

/-- The end of a batch whose closure returned: a failed `COMMIT` is rolled back. -/
def finishBatch : Sql Unit :=
  tryCatch (commit >>= fun _ => setUncommittedRebuild false) fun e => do
    abandonBatch
    throw e

def executeBatch (f : Sql Unit) : Sql Unit := do
  beginBatch
  tryCatch f fun e => do
    abandonBatch
    throw e
  finishBatch

/-- A call through the handle, or one end of a batch. The closure of a batch may do what it wants with the
results of its calls, so a batch is `beginBatch`, any calls, and one of its two ends. -/
inductive Op where
  | ensureSidecars (ftsInSync : Option Bool)
  | insertChunks (filePath language : String) (chunks : List Chunk)
  | deleteChunksForFile (filePath : String)
  | repairFtsSidecar
  | beginBatch
  | finishBatch
  | abandonBatch

namespace Op

def call : Op → Sql Unit
  | .ensureSidecars ftsInSync => do let _ ← Storage.ensureSidecars ftsInSync
  | .insertChunks filePath language chunks => Storage.insertChunks filePath language chunks
  | .deleteChunksForFile filePath => do let _ ← Storage.deleteChunksForFile filePath
  | .repairFtsSidecar => Storage.repairFtsSidecar
  | .beginBatch => Storage.beginBatch
  | .finishBatch => Storage.finishBatch
  | .abandonBatch => Storage.abandonBatch

/-- A caller that passes an FTS verdict to `ensure_sidecars` has just probed or rebuilt the sidecar. -/
def enabled (h : Handle) : Op → Bool
  | .ensureSidecars (some true) => h.current.ftsInSync
  | _ => true

end Op

/-- One operation in a world with the given failures. -/
def sidecarStep (h : Handle) (a : Op × List (Option Fault)) : Outcome Handle :=
  if a.1.enabled h then .next (a.1.call ⟨h, a.2⟩).2.state else .disabled

end Storage
end CodeSage
