import Mathlib.Algebra.Order.Ring.Int
import CodeSage.Lib.Script
import CodeSage.Storage.Structural

/-!
# CodeSage.Storage.Overlay

The structural overlay (`crates/storage/src/db/overlay.rs`): six temporary views over the read-only index
that replace the rows of dirty files. The statements of the installation are a script over the temporary
schema and the id counters; any of them, and the checkpoint before it, may fail in the world. A failure
rolls back to the savepoint.
-/

namespace CodeSage
namespace Storage

open Lib.Script

/-- `TABLES` -/
inductive TableName where
  | files | symbols | refs | pythonBindings | symbolFingerprints | fileTrustBoundaries
  deriving DecidableEq, Repr

def TABLES : List TableName :=
  [.files, .symbols, .refs, .pythonBindings, .symbolFingerprints, .fileTrustBoundaries]

/-- The temporary schema: `__overlay_dirty`, `__overlay_sources`, the `__overlay_` tables and the views. -/
structure Temp where
  dirty : List (String × Option Int) := []
  sources : List (String × String × String) := []
  tables : Tables := {}
  views : List TableName := []
  deriving DecidableEq, Repr

structure Connection where
  main : Tables
  readOnly : Bool
  temp : Option Temp

/-- Temporary schema and local variables of the installation. -/
structure Work where
  created : Bool := false
  temp : Temp := {}
  fileId : Int := 0
  symbolId : Int := 0
  referenceId : Int := 0
  fingerprintId : Int := 0
  /-- `id` in the body of the loop over the replacements -/
  current : Int := 0
  deriving DecidableEq, Repr

namespace Work

def setDirty (w : Work) (rows : List (String × Option Int)) : Work := { w with temp := { w.temp with dirty := rows } }

def setFiles (w : Work) (rows : List FileRow) : Work :=
  { w with temp := { w.temp with tables := { w.temp.tables with files := rows } } }

def setSymbols (w : Work) (rows : List (Row Int SymbolCols)) (id : Int) : Work :=
  { w with symbolId := id, temp := { w.temp with tables := { w.temp.tables with symbols := rows } } }

def setRefs (w : Work) (rows : List (Row Int RefCols)) (id : Int) : Work :=
  { w with referenceId := id, temp := { w.temp with tables := { w.temp.tables with refs := rows } } }

def setBindings (w : Work) (rows : List (Row Unit BindingCols)) : Work :=
  { w with temp := { w.temp with tables := { w.temp.tables with pythonBindings := rows } } }

def setFingerprints (w : Work) (rows : List (Row Int FingerprintCols)) (id : Int) : Work :=
  { w with fingerprintId := id, temp := { w.temp with tables := { w.temp.tables with symbolFingerprints := rows } } }

def setBoundaries (w : Work) (rows : List (Row Unit String)) : Work :=
  { w with temp := { w.temp with tables := { w.temp.tables with fileTrustBoundaries := rows } } }

end Work

/-- `SELECT COALESCE(MAX(key), 0)` -/
def overlayMaxId (ids : List Int) : Int := ids.max?.getD 0

/-- `next_id` -/
def nextId (id : Int) : Except Failure Int := if id + 1 < 2 ^ 63 then .ok (id + 1) else .error .idExhausted

/-- `SELECT id FROM main.files WHERE path` -/
def idOf (main : Tables) (path : String) : Option Int := (main.files.find? (·.cols.path = path)).map (·.id)

section Statements

variable {J α β : Type} (toJson : J → Option String) (now : Int) (main : Tables)

def checkpoint : Stmt Work Failure := fun w => .ok w

/-- `ensure!` -/
def ensure (cond : Bool) (failure : Failure) : Stmt Work Failure := fun w => if cond then .ok w else .error failure

def createTables : Stmt Work Failure := fun w => .ok { w with created := true }

/-- The path is the primary key of `__overlay_dirty` and its file id is unique. -/
def insertDirty (path : String) : Stmt Work Failure := fun w =>
  if w.temp.dirty.any (fun row => row.1 = path || (row.2.isSome && row.2 = idOf main path)) then .error .constraint
  else .ok (w.setDirty (w.temp.dirty ++ [(path, idOf main path)]))

def startFileId : Stmt Work Failure := fun w => .ok { w with fileId := overlayMaxId (fileIds main.files) }

def startSymbolId : Stmt Work Failure := fun w => .ok { w with symbolId := overlayMaxId (main.symbols.map (·.id)) }

def startReferenceId : Stmt Work Failure := fun w => .ok { w with referenceId := overlayMaxId (main.refs.map (·.id)) }

def startFingerprintId : Stmt Work Failure := fun w =>
  .ok { w with fingerprintId := overlayMaxId (main.symbolFingerprints.map (·.id)) }

/-- A file of the index keeps its id. -/
def chooseId (path : String) : Stmt Work Failure := fun w =>
  match idOf main path with
  | some id => .ok { w with current := id }
  | none => (nextId w.fileId).map fun id => { w with fileId := id, current := id }

def overlayFile (r : Replacement J) : FileCols :=
  { path := r.file.path, language := r.file.language, contentHash := r.file.contentHash, indexedAt := now,
    boundariesDerivedAt := now, interpretation := some r.interpretation, isTest := r.file.isTest }

def insertFile (r : Replacement J) : Stmt Work Failure := fun w =>
  let files := w.temp.tables.files
  if w.current ∈ fileIds files || r.file.path ∈ filePaths files then .error .constraint
  else .ok (w.setFiles (files ++ [⟨w.current, overlayFile now r⟩]))

def insertSource (r : Replacement J) : Stmt Work Failure := fun w =>
  if w.temp.sources.any (·.1 = r.file.path) then .error .constraint
  else .ok { w with temp := { w.temp with
    sources := w.temp.sources ++ [(r.file.path, r.source, r.file.language)] } }

/-- A row under the next id of its table. -/
def numberedInsert (cols : β → Except Failure α) (fileId : Int) (x : β) (rows : List (Row Int α)) (id : Int) :
    Except Failure (List (Row Int α) × Int) :=
  (nextId id).bind fun id =>
    (cols x).bind fun c =>
      (insertRow (fun new old => old.id = new.id) rows ⟨id, fileId, c⟩).map fun rows => (rows, id)

/-- The values bound for a symbol of the overlay -/
def overlaySymbolCols (path : String) (s : Symbol J) : Except Failure SymbolCols :=
  if s.filePath ≠ path then .error .differentFile
  else
    (serialize toJson s.rationale).bind fun rationale =>
      (serializeOption toJson (s.signature.bind (·.arity))).bind fun arity =>
        (serializeOption toJson (s.signature.map (·.parameters))).map fun parameters =>
          { name := s.name, qualifiedName := s.qualifiedName, kind := s.kind, lineStart := s.lineStart,
            lineEnd := s.lineEnd, colStart := s.colStart, colEnd := s.colEnd, rationale,
            visibility := s.visibility, isTest := s.isTest, signature := s.signature.map (·.declaration), arity,
            parameters, returnType := s.signature.bind (·.returns) }

def insertSymbol (path : String) (s : Symbol J) : Stmt Work Failure := fun w =>
  (numberedInsert (overlaySymbolCols toJson path) w.current s w.temp.tables.symbols w.symbolId).map fun r =>
    w.setSymbols r.1 r.2

def overlayRefCols (path : String) (r : Reference) : Except Failure RefCols :=
  if r.fromFile ≠ path then .error .differentFile
  else .ok { fromSymbol := r.fromSymbol, toName := r.toName, toNameTail := nameTail r.toName, kind := r.kind,
             line := r.line, col := r.col, lazy := r.lazy }

def insertReference (path : String) (x : Reference) : Stmt Work Failure := fun w =>
  (numberedInsert (overlayRefCols path) w.current x w.temp.tables.refs w.referenceId).map fun r =>
    w.setRefs r.1 r.2

/-- The three loops over the bindings of a replacement -/
def overlayBindings (b : PythonBindings J) : List (BoundReference J) :=
  b.references
    ++ b.exports.map (fun e => { kind := "export", toName := e.1, line := 0, col := 0, target := e.2 })
    ++ b.classes.map fun c =>
      { kind := "class_member", toName := c.qualifiedClass ++ "." ++ c.name, line := c.definitionLine, col := 0,
        target := c.target }

def insertBinding (x : BoundReference J) : Stmt Work Failure := fun w =>
  (bindingCols toJson x).bind fun c =>
    (insertRow (sameKey bindingKey) w.temp.tables.pythonBindings ⟨(), w.current, c⟩).map w.setBindings

def overlayFingerprintCols (f : FingerprintInput) : Except Failure FingerprintCols :=
  if f.fp.length ≠ 64 then .error .fingerprintLength
  else .ok { name := f.name, kind := f.kind, lineStart := f.lineStart, lineEnd := f.lineEnd,
             leafCount := f.leafCount, fp := f.fp.flatMap leBytes }

def insertFingerprint (x : FingerprintInput) : Stmt Work Failure := fun w =>
  (numberedInsert overlayFingerprintCols w.current x w.temp.tables.symbolFingerprints w.fingerprintId).map fun r =>
    w.setFingerprints r.1 r.2

def insertBoundary (tag : String) : Stmt Work Failure := fun w =>
  .ok (w.setBoundaries (insertOrIgnore w.temp.tables.fileTrustBoundaries ⟨(), w.current, tag⟩))

/-- The body of the loop over the replacements -/
def replacementScript (r : Replacement J) : List (Stmt Work Failure) :=
  [checkpoint, chooseId main r.file.path, insertFile now r, insertSource r]
    ++ r.symbols.map (insertSymbol toJson r.file.path)
    ++ r.references.map (insertReference r.file.path)
    ++ (overlayBindings r.pythonBindings).map (insertBinding toJson)
    ++ r.fingerprints.map insertFingerprint
    ++ r.trustBoundaries.map insertBoundary

def createView (table : TableName) : Stmt Work Failure := fun w =>
  .ok { w with temp := { w.temp with views := w.temp.views ++ [table] } }

/-- `populate_structural_overlay` -/
def populate (dirty : List String) (replacements : List (Replacement J)) : List (Stmt Work Failure) :=
  [createTables]
    ++ dirty.map (insertDirty main)
    -- the empty `__overlay_` tables, then their indexes
    ++ TABLES.map (fun _ => checkpoint)
    ++ [checkpoint, startFileId main, startSymbolId main, startReferenceId main, startFingerprintId main]
    ++ replacements.flatMap (replacementScript toJson now main)
    ++ TABLES.map createView
    ++ [checkpoint]

/-- The checks of each replacement, with the paths already replaced -/
def replacementGuards (dirty : List String) : List String → List (Replacement J) → List (Stmt Work Failure)
  | _, [] => []
  | replaced, r :: rest =>
    ensure (dirty.contains r.file.path) .notDirty
      :: ensure (!replaced.contains r.file.path) .duplicateReplacement
      :: replacementGuards dirty (r.file.path :: replaced) rest

/-- What `install_structural_overlay` checks before the savepoint, and the savepoint -/
def prelude (c : Connection) (dirty : List String) (replacements : List (Replacement J)) :
    List (Stmt Work Failure) :=
  [checkpoint, ensure c.readOnly .readOnly, ensure c.temp.isNone .installed,
    ensure dirty.Nodup .duplicatePath]
    ++ replacementGuards dirty [] replacements
    ++ [checkpoint]

end Statements

section Views

variable {ι α : Type}

def dirtyIds (temp : Temp) : List Int := temp.dirty.filterMap (·.2)

/-- The rows of a view: those of clean files, then those of the overlay. -/
def shadow (temp : Temp) (table : TableName) (rows : List (Row ι α)) (overlay : List (Row ι α)) : List (Row ι α) :=
  if table ∈ temp.views then rows.filter (·.fileId ∉ dirtyIds temp) ++ overlay else rows

/-- The tables a query of the connection reads. -/
def Connection.visible (c : Connection) : Tables :=
  match c.temp with
  | none => c.main
  | some temp =>
    { files :=
        if .files ∈ temp.views then c.main.files.filter (·.id ∉ dirtyIds temp) ++ temp.tables.files
        else c.main.files
      symbols := shadow temp .symbols c.main.symbols temp.tables.symbols
      refs := shadow temp .refs c.main.refs temp.tables.refs
      pythonBindings := shadow temp .pythonBindings c.main.pythonBindings temp.tables.pythonBindings
      symbolFingerprints := shadow temp .symbolFingerprints c.main.symbolFingerprints temp.tables.symbolFingerprints
      fileTrustBoundaries :=
        shadow temp .fileTrustBoundaries c.main.fileTrustBoundaries temp.tables.fileTrustBoundaries }

end Views

/-- The temporary schema as a failed rollback leaves it. -/
def Work.left (w : Work) : Option Temp := if w.created then some w.temp else none

/-- `install_structural_overlay` -/
def installStructuralOverlay {J : Type} (toJson : J → Option String) (now : Int) (fails : Nat → Option Failure)
    (c : Connection) (dirty : List String) (replacements : List (Replacement J)) :
    Except Failure Unit × Connection :=
  let entered := run fails (prelude c dirty replacements) 0 {}
  match entered.failure with
  | some e => (.error e, c)
  | none =>
    let result := run fails (populate toJson now c.main dirty replacements ++ [checkpoint]) entered.calls {}
    match result.failure with
    | none => (.ok (), { c with temp := some result.state.temp })
    | some e =>
      -- `ROLLBACK TO structural_overlay; RELEASE structural_overlay`
      match fails result.calls with
      | some _ => (.error .rollback, { c with temp := result.state.left })
      | none =>
        match fails (result.calls + 1) with
        | some _ => (.error .rollback, c)
        | none => (.error e, c)

end Storage
end CodeSage
