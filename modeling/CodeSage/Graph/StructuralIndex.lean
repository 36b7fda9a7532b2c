import Mathlib.Data.Finset.Basic
import CodeSage.Lib.Prog
import CodeSage.Lib.Table
import CodeSage.Parser.Detect

/-!
# CodeSage.Graph.StructuralIndex

The structural passes (`crates/graph/src/index.rs`) over the index, with the rows of a file kept under its
path. A content is named by its hash. Parsing is `Extraction`; what the disk, the database and the Java
declaration context do during one pass is `Reads`. Every committed transaction may be the last one of a pass.
-/

namespace CodeSage
namespace Graph

open Lib Lib.Prog
open CodeSage.Parser (Language FileInfo isCppEvidence endsWith)

/-- The fields of a stored symbol that chunk headers name -/
structure SymbolRow where
  name : String
  qualifiedName : String
  kind : String
  lineStart : Nat
  lineEnd : Nat
  deriving DecidableEq, Repr

/-- What parsing a content of a path in a language gives. -/
structure Extraction (ρ β : Type) where
  symbols : String → String → Language → List SymbolRow
  /-- references, Python bindings, fingerprints and `is_test` -/
  derived : String → String → Language → ρ
  /-- trust boundaries, given the contents of all Java files -/
  boundaries : String → String → Language → Finset (String × String) → β
  boundaries_of_ne_java : ∀ path hash language java, language ≠ .java →
    boundaries path hash language java = boundaries path hash language ∅

/-- A row of `files` with the rows that cascade from it -/
structure FileRow (ρ β : Type) where
  contentHash : String
  language : Language
  interpretation : Option String
  symbols : List SymbolRow
  derived : ρ
  boundaries : β

/-- A row of the chunk table; `embeddedUnder` is the setup its vector comes from. -/
structure ChunkRow (φ ν : Type) where
  filePath : String
  language : String
  text : String
  startLine : Nat
  endLine : Nat
  vector : ν
  embeddedUnder : φ
  deriving DecidableEq, Repr

/-- One index with the chunk table of one handle -/
structure Store (ρ β φ ν : Type) where
  files : Table String (FileRow ρ β) := ∅
  chunks : List (ChunkRow φ ν) := []
  semanticFiles : Table String String := ∅
  /-- model and dimension of the row of `semantic_models` -/
  model : Option (String × Nat) := none
  fingerprint : Option φ := none
  hasTable : Bool := false
  /-- every reuse of a stored vector: the fingerprint of the pass and the one recorded then -/
  reuses : List (φ × Option φ) := []

structure DiscoveryReport where
  files : List FileInfo
  failedPaths : List String := []

inductive IndexStrategy where
  | full | incremental
  deriving DecidableEq, Repr

/-- What a pass meets. -/
structure Reads where
  /-- the content of a path when the pass reads it -/
  disk : String → String
  /-- the path cannot be read or parsed -/
  unreadable : String → Bool
  /-- the rows of the path break a unique key -/
  unwritable : String → Bool
  /-- the transaction of the `n`-th batch fails -/
  batchFails : Nat → Bool
  /-- `JavaTypeContext::from_files` fails -/
  contextFails : Bool
  /-- `derive_for_files_with_source` fails -/
  refreshFails : Bool

def STRUCTURAL_INTERPRETATION : String := "codesage/structural/v1;parser-queries=9;extraction=20;trust-boundaries=8"

def STRUCTURAL_INDEX_BATCH_SIZE : Nat := 50

def isHeaderContextPath (path : String) : Bool := endsWith path ".h" || isCppEvidence path

section Passes

variable {ρ β φ ν : Type}

abbrev Pass (ρ β φ ν α : Type) := Prog (Store ρ β φ ν) Unit α

namespace Store

/-- `overlay_file_infos` -/
def fileInfos (s : Store ρ β φ ν) : List FileInfo :=
  s.files.rows.map fun row => ⟨row.1, row.2.language, row.2.contentHash⟩

def language (s : Store ρ β φ ν) (path : String) : Option Language := (s.files.lookup path).map (·.language)

def isJava (s : Store ρ β φ ν) (path : String) : Bool := s.language path = some .java

/-- The Java paths of the index -/
def javaPaths (s : Store ρ β φ ν) : List String := s.files.keys.filter s.isJava

def mapFiles (s : Store ρ β φ ν) (f : String → FileRow ρ β → FileRow ρ β) : Store ρ β φ ν :=
  { s with files := s.files.mapRows f }

/-- `Database::remove_file`, for the rows modelled here -/
def removeFile (s : Store ρ β φ ν) (path : String) : Store ρ β φ ν :=
  { s with files := s.files.erase path, semanticFiles := s.semanticFiles.erase path,
           chunks := s.chunks.filter (·.filePath ≠ path) }

/-- `Database::remove_structural_file` -/
def removeStructuralFile (s : Store ρ β φ ν) (path : String) : Store ρ β φ ν :=
  { s with files := s.files.erase path }

end Store

/-- The interpretation of the rows a condition picks -/
def markStale (mark : String) (picks : String → FileRow ρ β → Bool) (s : Store ρ β φ ν) : Store ρ β φ ν :=
  s.mapFiles fun path row => if picks path row then { row with interpretation := some mark } else row

def javaMarked (s : Store ρ β φ ν) : Store ρ β φ ν :=
  markStale "codesage/structural/java-context-stale" (fun _ row => row.language = .java) s

def headersMarked (s : Store ρ β φ ν) : Store ρ β φ ν :=
  markStale "codesage/structural/header-context-stale" (fun path _ => endsWith path ".h") s

def markJavaContextStale : Pass ρ β φ ν Unit := commit javaMarked

def markHeaderContextStale : Pass ρ β φ ν Unit := commit headersMarked

/-- A map of the paths a condition picks to hash and language -/
def contextOf (picks : String → Bool) (files : List FileInfo) : Table String (String × Language) :=
  Table.collect ((files.filter fun f => picks f.path).map fun f => (f.path, f.contentHash, f.language))

/-- The condition of `index_discovery_report` for marking headers stale before the first write -/
def headerContextChanged (previous : List FileInfo) (report : DiscoveryReport) : Bool :=
  let previousCpp := contextOf isCppEvidence previous
  let currentCpp := contextOf isCppEvidence report.files
  let previousHeaders := contextOf (endsWith · ".h") previous
  let currentHeaders := contextOf (endsWith · ".h") report.files
  let headerMembershipChanged := previousHeaders.keys.length ≠ currentHeaders.keys.length
    || previousHeaders.keys.any fun path => (currentHeaders.lookup path).isNone
  let onlyCppRemovals := currentCpp.keys.length < previousCpp.keys.length
    && currentCpp.keys.all fun path => previousCpp.lookup path = currentCpp.lookup path
  let retainedHeaders := onlyCppRemovals && previousHeaders.same currentHeaders
  (!previousCpp.same currentCpp && !retainedHeaders) || headerMembershipChanged
    || report.failedPaths.any isHeaderContextPath

/-- One parsed file: its path and the row `write_one` stores -/
structure ParsedFile (ρ β : Type) where
  path : String
  row : FileRow ρ β

section Parse

variable (x : Extraction ρ β) (reads : Reads)

/-- The pairs `JavaTypeContext::from_files` reads -/
def javaContext (paths : List String) : Finset (String × String) :=
  (paths.map fun path => (path, reads.disk path)).toFinset

/-- `parse_one` fails on a file it cannot read or parse, and on a header or C++ file that changed after discovery. -/
def parseFails (f : FileInfo) : Bool :=
  reads.unreadable f.path || (isHeaderContextPath f.path && reads.disk f.path ≠ f.contentHash)

def parseSource (java : Finset (String × String)) (f : FileInfo) : ParsedFile ρ β :=
  let hash := reads.disk f.path
  { path := f.path,
    row := { contentHash := hash, language := f.language, interpretation := some STRUCTURAL_INTERPRETATION,
             symbols := x.symbols f.path hash f.language, derived := x.derived f.path hash f.language,
             boundaries := x.boundaries f.path hash f.language java } }

/-- `parse_batch`: the parsed files and the failed paths -/
def parseBatch (java : Finset (String × String)) (batch : List FileInfo) : List (ParsedFile ρ β) × List String :=
  ((batch.filter fun f => !parseFails reads f).map (parseSource x reads java),
    (batch.filter (parseFails reads)).map (·.path))

/-- `write_one`: `upsert_file` also deletes the semantic hash of the path. -/
def writeOne (s : Store ρ β φ ν) (p : ParsedFile ρ β) : Store ρ β φ ν :=
  { s with files := s.files.insert p.path p.row, semanticFiles := s.semanticFiles.erase p.path }

/-- The retry of a failed batch, file by file -/
def writeEach (failed : List String) (p : ParsedFile ρ β) : Pass ρ β φ ν (List String) :=
  if reads.unwritable p.path then pure (failed ++ [p.path])
  else do
    commit fun s => writeOne s p
    pure failed

/-- `write_parsed_batch`: the failed paths -/
def writeParsedBatch (n : Nat) (parsed : List (ParsedFile ρ β)) : Pass ρ β φ ν (List String) :=
  if parsed.isEmpty then pure []
  else if reads.batchFails n || parsed.any fun p => reads.unwritable p.path then fold (writeEach reads) [] parsed
  else do
    commit fun s => parsed.foldl writeOne s
    pure []

/-- The body of the loop over the batches: failed paths so far and the batch number -/
def indexBatch (java : Finset (String × String)) (acc : List String × Nat) (batch : List FileInfo) :
    Pass ρ β φ ν (List String × Nat) := do
  let parsed := parseBatch x reads java batch
  let rejected ← writeParsedBatch reads acc.2 parsed.1
  pure (acc.1 ++ parsed.2 ++ rejected, acc.2 + 1)

def indexBatches (java : Finset (String × String)) (toParse : List FileInfo) : Pass ρ β φ ν (List String) := do
  let acc ← fold (indexBatch x reads java) ([], 0) (slices STRUCTURAL_INDEX_BATCH_SIZE toParse)
  pure acc.1

end Parse

/-- Hash, language or interpretation of the stored row differ. -/
def differs (s : Store ρ β φ ν) (f : FileInfo) : Bool :=
  (s.files.lookup f.path).map (·.contentHash) ≠ some f.contentHash || s.language f.path ≠ some f.language
    || (s.files.lookup f.path).bind (·.interpretation) ≠ some STRUCTURAL_INTERPRETATION

def discoveredPaths (report : DiscoveryReport) : List String := report.files.map (·.path) ++ report.failedPaths

def orphansOf (s : Store ρ β φ ν) (report : DiscoveryReport) : List String :=
  s.files.keys.filter fun path => path ∉ discoveredPaths report

def unavailableJavaSource (s : Store ρ β φ ν) (report : DiscoveryReport) : Bool :=
  report.failedPaths.any fun path => endsWith path ".java" || s.isJava path

/-- `java_changed` of the incremental pass -/
def javaChanged (s : Store ρ β φ ν) (report : DiscoveryReport) : Bool :=
  unavailableJavaSource s report || (report.files.any fun f => f.language = .java && differs s f)
    || (orphansOf s report).any s.isJava

/-- `to_parse` -/
def filesToParse (s : Store ρ β φ ν) (report : DiscoveryReport) : IndexStrategy → List FileInfo
  | .full => report.files
  | .incremental => report.files.filter fun f => differs s f || (f.language = .java && javaChanged s report)

def removeOrphans (orphans : List String) : Pass ρ β φ ν Unit :=
  whenever (!orphans.isEmpty) (commit fun s => orphans.foldl Store.removeFile s)

/-- The Java declaration context with the files to parse under it and the Java paths kept for retry -/
def chooseJavaContext (reads : Reads) (javaPaths : List String) (unavailable : Bool) (toParse : List FileInfo) :
    Pass ρ β φ ν (Finset (String × String) × List FileInfo × List String) :=
  if toParse.any (·.language = .java) || unavailable then
    if unavailable || reads.contextFails then do
      markJavaContextStale
      pure (∅, toParse.filter (·.language ≠ .java), (toParse.filter (·.language = .java)).map (·.path))
    else pure (javaContext reads javaPaths, toParse, [])
  else pure (∅, toParse, [])

/-- A full pass discards the rows of the files it could not process. -/
def purgeFailed (strategy : IndexStrategy) (failed : List String) : Pass ρ β φ ν Unit :=
  whenever (strategy = .full && !failed.isEmpty) (commit fun s => failed.foldl Store.removeStructuralFile s)

/-- `index_discovery_report` from the selection on; `before` is the index before the orphans went. -/
def indexSelected (x : Extraction ρ β) (reads : Reads) (report : DiscoveryReport) (strategy : IndexStrategy)
    (before : Store ρ β φ ν) : Pass ρ β φ ν (List String) := do
  let selected := filesToParse before report strategy
  let unavailableHeader := report.failedPaths.any isHeaderContextPath
  let held := if unavailableHeader then selected.filter fun f => endsWith f.path ".h" else []
  let toParse := if unavailableHeader then selected.filter fun f => !endsWith f.path ".h" else selected
  let javaPaths := (report.files.filter fun f => f.language = .java).map (·.path)
  let context ← chooseJavaContext reads javaPaths (unavailableJavaSource before report) toParse
  let failed ← indexBatches x reads context.1 context.2.1
  purgeFailed strategy failed
  let allFailed := failed ++ report.failedPaths ++ held.map (·.path) ++ context.2.2
  whenever (allFailed.any isHeaderContextPath) markHeaderContextStale
  pure allFailed

/-- The failed paths of the pass -/
def indexDiscoveryReport (x : Extraction ρ β) (reads : Reads) (report : DiscoveryReport) (strategy : IndexStrategy) :
    Pass ρ β φ ν (List String) := do
  let s ← state
  whenever (headerContextChanged s.fileInfos report) markHeaderContextStale
  let before ← state
  removeOrphans (orphansOf before report)
  indexSelected x reads report strategy before

/-- The updates of `boundary_updates_from_source` for every Java file of the index -/
def refreshedBoundaries (x : Extraction ρ β) (reads : Reads) (s : Store ρ β φ ν) : Store ρ β φ ν :=
  s.mapFiles fun path row =>
    if row.language = .java then
      { row with boundaries := x.boundaries path (reads.disk path) .java (javaContext reads s.javaPaths) }
    else row

/-- `refresh_java_boundaries`: whether it succeeded -/
def refreshJavaBoundaries (x : Extraction ρ β) (reads : Reads) : Pass ρ β φ ν Bool :=
  if reads.refreshFails then do
    markJavaContextStale
    pure false
  else do
    commit (refreshedBoundaries x reads)
    pure true

/-- The files of `index_files` under the Java context of the index and of the files themselves -/
def indexFilesInContext (x : Extraction ρ β) (reads : Reads) (files : List FileInfo) (s : Store ρ β φ ν) :
    Pass ρ β φ ν (Option (List String)) :=
  let javaFiles := files.filter fun f => f.language = .java
  if !javaFiles.isEmpty && reads.contextFails then do
    markJavaContextStale
    let _ ← indexBatches x reads ∅ (files.filter fun f => f.language ≠ .java)
    pure none
  else do
    let java := if javaFiles.isEmpty then ∅ else javaContext reads (s.javaPaths ++ javaFiles.map (·.path))
    let failed ← indexBatches x reads java files
    if javaFiles.isEmpty then pure (some failed)
    else do
      let refreshed ← refreshJavaBoundaries x reads
      pure (if refreshed then some failed else none)

/-- `index_files`: the failed paths, or `none` for an error -/
def indexFiles (x : Extraction ρ β) (reads : Reads) (files : List FileInfo) : Pass ρ β φ ν (Option (List String)) :=
  if files.isEmpty then pure (some [])
  else do
    let s ← state
    whenever (files.any fun f => isCppEvidence f.path || (endsWith f.path ".h" && f.path ∉ s.files.keys))
      markHeaderContextStale
    indexFilesInContext x reads files s

/-- `remove_files` -/
def removeFiles (paths : List String) : Pass ρ β φ ν Unit := do
  whenever (paths.any isHeaderContextPath) markHeaderContextStale
  commit fun s => paths.foldl Store.removeFile s

/-- `remove_files_with_source` -/
def removeFilesWithSource (x : Extraction ρ β) (reads : Reads) (paths : List String) : Pass ρ β φ ν Bool := do
  let s ← state
  removeFiles paths
  if paths.any fun path => endsWith path ".java" || s.isJava path then refreshJavaBoundaries x reads else pure true

end Passes

end Graph
end CodeSage
