import CodeSage.Graph.StructuralIndex

/-!
# CodeSage.Graph.SemanticIndex

The semantic passes (`crates/graph/src/semantic.rs`) and `open_for_model_rebuild` over the chunk table of one
handle. Chunking is a function of the content and embedding one of the fingerprint and the text (`Setup`).
A chunk row carries the fingerprint its vector was embedded under, and every reuse of a stored vector is
logged with the fingerprint recorded at that moment.
-/

namespace CodeSage
namespace Graph

open Lib Lib.Prog
open CodeSage.Parser (Language FileInfo)

/-- `chunk_text` of a content and `embed_batch` after `bind_fingerprint` -/
structure Setup (φ ν : Type) where
  chunkText : String → List (String × Nat × Nat)
  embed : φ → String → ν

def COMMIT_BATCH_SIZE : Nat := 50

/-- `Language::as_str` -/
def languageName : Language → String
  | .php => "php"
  | .python => "python"
  | .c => "c"
  | .cpp => "cpp"
  | .java => "java"
  | .rust => "rust"
  | .javaScript => "javascript"
  | .typeScript => "typescript"
  | .go => "go"

def shouldAugment (language : String) : Bool := language ≠ "c" && language ≠ "rust"

def symbolLine (sym : SymbolRow) : String :=
  if sym.qualifiedName ≠ sym.name then "# " ++ sym.qualifiedName ++ " (" ++ sym.kind ++ ")"
  else "# " ++ sym.name ++ " (" ++ sym.kind ++ ")"

def buildChunkHeader (filePath : String) (symbols : List SymbolRow) (startLine endLine : Nat) : String :=
  let overlapping := symbols.filter fun sym => sym.lineStart ≤ endLine && startLine ≤ sym.lineEnd
  "\n".intercalate (("# " ++ filePath) :: overlapping.map symbolLine)

/-- A file with its chunks: text, first and last line -/
structure ChunkedFile where
  path : String
  language : String
  chunks : List (String × Nat × Nat)

def augmentChunks (cf : ChunkedFile) (symbols : List SymbolRow) : ChunkedFile :=
  { cf with chunks := cf.chunks.map fun chunk =>
      let header := buildChunkHeader cf.path symbols chunk.2.1 chunk.2.2
      if header.isEmpty then chunk else (header ++ "\n" ++ chunk.1, chunk.2) }

section Passes

variable {ρ β φ ν : Type}

namespace Store

/-- The symbols of `symbols_for_files` for one path -/
def symbolsFor (s : Store ρ β φ ν) (path : String) : List SymbolRow :=
  ((s.files.lookup path).elim [] (·.symbols)).mergeSort fun a b => a.lineStart ≤ b.lineStart

/-- `chunk_embeddings_for_file` as a map from texts: of equal texts the last row counts. -/
def storedChunk (s : Store ρ β φ ν) (path text : String) : Option (ChunkRow φ ν) :=
  (s.chunks.filter (·.filePath = path)).reverse.find? (·.text = text)

/-- `delete_chunks_for_file` -/
def deleteChunks (s : Store ρ β φ ν) (path : String) : Store ρ β φ ν :=
  { s with chunks := s.chunks.filter (·.filePath ≠ path) }

/-- `delete_semantic_file_hash` -/
def deleteSemanticHash (s : Store ρ β φ ν) (path : String) : Store ρ β φ ν :=
  { s with semanticFiles := s.semanticFiles.erase path }

def forgetSemantic (s : Store ρ β φ ν) (path : String) : Store ρ β φ ν := (s.deleteChunks path).deleteSemanticHash path

/-- `clear_semantic_fingerprint` -/
def clearFingerprint (s : Store ρ β φ ν) : Store ρ β φ ν := { s with fingerprint := none }

/-- `drop_chunk_table_group` -/
def dropChunkTableGroup (s : Store ρ β φ ν) : Store ρ β φ ν :=
  { s with chunks := [], semanticFiles := ∅, model := none, fingerprint := none, hasTable := false }

end Store

section Batch

variable (setup : Setup φ ν) (reads : Reads) (own : φ) (reuse : Bool)

/-- `chunk_one`: the file with the hash of what was read -/
def readInfo (f : FileInfo) : FileInfo := { f with contentHash := reads.disk f.path }

def chunkOne (f : FileInfo) : ChunkedFile :=
  { path := f.path, language := languageName f.language, chunks := setup.chunkText f.contentHash }

/-- The paths whose symbols belong to the content that was read -/
def augmentPaths (s : Store ρ β φ ν) (selected : List FileInfo) : List String :=
  (selected.filter fun f => shouldAugment (languageName f.language) &&
    (s.files.lookup f.path).map (·.contentHash) = some f.contentHash).map (·.path)

/-- The files with at least one chunk, augmented -/
def chunkedFiles (s : Store ρ β φ ν) (selected : List FileInfo) : List ChunkedFile :=
  ((selected.map (chunkOne setup)).filter fun cf => !cf.chunks.isEmpty).map fun cf =>
    if shouldAugment cf.language && cf.path ∈ augmentPaths s selected then augmentChunks cf (s.symbolsFor cf.path) else cf

/-- The stored row whose vector a chunk may keep -/
def reusable (s : Store ρ β φ ν) (cf : ChunkedFile) (chunk : String × Nat × Nat) : Option (ChunkRow φ ν) :=
  if reuse then s.storedChunk cf.path chunk.1 else none

def chunkRow (s : Store ρ β φ ν) (cf : ChunkedFile) (chunk : String × Nat × Nat) : ChunkRow φ ν :=
  match reusable reuse s cf chunk with
  | some old => ⟨cf.path, cf.language, chunk.1, chunk.2.1, chunk.2.2, old.vector, old.embeddedUnder⟩
  | none => ⟨cf.path, cf.language, chunk.1, chunk.2.1, chunk.2.2, setup.embed own chunk.1, own⟩

/-- The rows for a path: `by_path` keeps the last of the files of one path. -/
def rowsFor (s : Store ρ β φ ν) (selected : List FileInfo) (path : String) : List (ChunkRow φ ν) :=
  match (chunkedFiles setup s selected).reverse.find? (·.path = path) with
  | some cf => cf.chunks.map (chunkRow setup own reuse s cf)
  | none => []

/-- The chunks that keep a stored vector -/
def reusedChunks (s : Store ρ β φ ν) (selected : List FileInfo) : List (ChunkRow φ ν) :=
  (chunkedFiles setup s selected).flatMap fun cf => cf.chunks.filterMap (reusable reuse s cf)

/-- Some chunk has to be embedded. -/
def needsEmbedding (s : Store ρ β φ ν) (selected : List FileInfo) : Bool :=
  (chunkedFiles setup s selected).any fun cf => cf.chunks.any fun chunk => (reusable reuse s cf chunk).isNone

/-- One file of `write_semantic_updates` -/
def writeSemantic (rows : String → List (ChunkRow φ ν)) (s : Store ρ β φ ν) (f : FileInfo) : Store ρ β φ ν :=
  { s with chunks := s.chunks.filter (·.filePath ≠ f.path) ++ rows f.path,
           semanticFiles := s.semanticFiles.insert f.path f.contentHash }

def logReuses (reused : List (ChunkRow φ ν)) (s : Store ρ β φ ν) : Store ρ β φ ν :=
  { s with reuses := s.reuses ++ reused.map fun _ => (own, s.fingerprint) }

def writeSemanticUpdates (rows : String → List (ChunkRow φ ν)) (selected : List FileInfo) : Pass ρ β φ ν Unit :=
  each (fun batch => commit fun s => batch.foldl (writeSemantic rows) s) (slices COMMIT_BATCH_SIZE selected)

/-- `process_semantic_batch` from the augmentation on -/
def embedAndWrite (selected : List FileInfo) : Pass ρ β φ ν Unit :=
  if selected.isEmpty then pure ()
  else do
    let s ← state
    update (logReuses own (reusedChunks setup reuse s selected))
    whenever (needsEmbedding setup reuse s selected) call
    writeSemanticUpdates (rowsFor setup own reuse s selected) selected

/-- The failed paths so far, with those of the batch -/
def processSemanticBatch (purge : Bool) (failed : List String) (batch : List FileInfo) : Pass ρ β φ ν (List String) := do
  let unreadable := (batch.filter fun f => reads.unreadable f.path).map (·.path)
  let selected := (batch.filter fun f => !reads.unreadable f.path).map (readInfo reads)
  whenever (purge && !unreadable.isEmpty) (commit fun s => unreadable.foldl Store.forgetSemantic s)
  embedAndWrite setup own reuse selected
  pure (failed ++ unreadable)

/-- `prepare`, `bind_fingerprint` and the loop over the batches -/
def embedFiles (purge : Bool) (failed : List String) (files : List FileInfo) : Pass ρ β φ ν (List String) := do
  call
  call
  fold (processSemanticBatch setup reads own reuse purge) failed (slices COMMIT_BATCH_SIZE files)

def embedSelected (report : DiscoveryReport) (selection : IndexStrategy) (toIndex : List FileInfo) :
    Pass ρ β φ ν (List String) :=
  if toIndex.isEmpty then pure report.failedPaths
  else embedFiles setup reads own reuse (selection = .full) report.failedPaths toIndex

end Batch

def selectSemanticFiles (s : Store ρ β φ ν) (files : List FileInfo) : IndexStrategy → List FileInfo
  | .full => files
  | .incremental => files.filter fun f => s.semanticFiles.lookup f.path ≠ some f.contentHash

/-- The table records another fingerprint, or none. -/
def isStale [DecidableEq φ] (own : φ) (s : Store ρ β φ ν) : Bool := s.fingerprint ≠ some own

/-- A path that discovery could not read keeps rows or a hash of another setup. -/
def retainedStaleRows (stale : Bool) (s : Store ρ β φ ν) (report : DiscoveryReport) : Bool :=
  stale && report.failedPaths.any fun path => path ∈ s.chunks.map (·.filePath) || path ∈ s.semanticFiles.keys

def recordsFingerprint (stale : Bool) (selection : IndexStrategy) (s : Store ρ β φ ν) (report : DiscoveryReport) : Bool :=
  !retainedStaleRows stale s report && (selection = .full || (s.chunks.isEmpty && s.semanticFiles.keys.isEmpty))

def orphanChunks (s : Store ρ β φ ν) (report : DiscoveryReport) : List String :=
  (s.chunks.map (·.filePath)).filter fun path => path ∉ discoveredPaths report

def orphanSemanticPaths (s : Store ρ β φ ν) (report : DiscoveryReport) : List String :=
  s.semanticFiles.keys.filter fun path => path ∉ discoveredPaths report

def removeSemanticOrphans (chunkPaths hashPaths : List String) : Pass ρ β φ ν Unit :=
  whenever (!chunkPaths.isEmpty || !hashPaths.isEmpty)
    (commit fun s => hashPaths.foldl Store.deleteSemanticHash (chunkPaths.foldl Store.deleteChunks s))

/-- `record_fingerprint` fails on a table without a row in `semantic_models`. -/
def recordFingerprint (own : φ) : Pass ρ β φ ν Unit := do
  let s ← state
  if s.model.isNone then throw () else commit fun s => { s with fingerprint := some own }

section Index

variable [DecidableEq φ] (setup : Setup φ ν) (reads : Reads) (own : φ)

/-- The failed paths of the pass -/
def semanticIndexDiscoveryReport (report : DiscoveryReport) (strategy : IndexStrategy) : Pass ρ β φ ν (List String) := do
  let s ← state
  let stale := isStale own s
  let reuse := strategy ≠ .full && !stale
  let selection := if stale then .full else strategy
  whenever (strategy = .full || stale) (commit Store.clearFingerprint)
  removeSemanticOrphans (orphanChunks s report) (orphanSemanticPaths s report)
  let failed ← embedSelected setup reads own reuse report selection (selectSemanticFiles s report.files selection)
  whenever (recordsFingerprint stale selection s report) (recordFingerprint own)
  pure failed

/-- The failed paths of the pass -/
def semanticIndexFiles (files : List FileInfo) : Pass ρ β φ ν (List String) :=
  if files.isEmpty then pure []
  else do
    let s ← state
    whenever (isStale own s) (commit Store.clearFingerprint)
    embedFiles setup reads own (!isStale own s) false [] files

end Index

def semanticRemoveFiles (paths : List String) : Pass ρ β φ ν Unit := commit fun s => paths.foldl Store.forgetSemantic s

/-- `open_for_model_rebuild`, statement by statement; the sidecars of the table are left out. -/
def openForModelRebuild (model : String) (dim : Nat) : Pass ρ β φ ν Unit := do
  let s ← state
  whenever (s.hasTable && s.model ≠ some (model, dim)) (commit Store.dropChunkTableGroup)
  commit fun s => { s with hasTable := true }
  commit fun s => { s with model := some (model, dim) }
  commit Store.clearFingerprint

end Passes

end Graph
end CodeSage
