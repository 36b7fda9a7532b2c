import CodeSage.Lib.Split
import CodeSage.Storage.Tables

/-!
# CodeSage.Storage.Structural

The writers of the structural index (`crates/storage/src/db/structural.rs`), in the order
`write_one` (`crates/graph/src/index.rs`) calls them, with the keys the schema makes unique.

`serde_json::to_string` is `toJson`, on whatever values are serialized; `pick` is the row id SQLite gives to
a new row, of which only that it is unused is known; `now` is `unixepoch()`.
-/

namespace CodeSage
namespace Storage

open Lib

inductive Failure where
  | constraint
  | check
  | serialize
  | idExhausted
  | readOnly
  | installed
  | duplicatePath
  | notDirty
  | duplicateReplacement
  | differentFile
  | fingerprintLength
  | world
  | rollback
  deriving DecidableEq, Repr

structure Signature (J : Type) where
  declaration : String
  arity : Option J
  parameters : J
  returns : Option String

structure Symbol (J : Type) where
  name : String
  qualifiedName : String
  kind : String
  filePath : String
  lineStart : Nat
  lineEnd : Nat
  colStart : Nat
  colEnd : Nat
  rationale : J
  visibility : Option String
  isTest : Bool
  signature : Option (Signature J)

structure Reference where
  fromFile : String
  fromSymbol : Option String
  toName : String
  kind : String
  line : Nat
  col : Nat
  lazy : Bool

structure BoundReference (J : Type) where
  kind : String
  toName : String
  line : Nat
  col : Nat
  target : J

structure ClassBinding (J : Type) where
  qualifiedClass : String
  name : String
  definitionLine : Nat
  target : J

structure PythonBindings (J : Type) where
  references : List (BoundReference J) := []
  exports : List (String × J) := []
  classes : List (ClassBinding J) := []

structure FingerprintInput where
  name : String
  kind : String
  lineStart : Nat
  lineEnd : Nat
  leafCount : Nat
  fp : List UInt64

structure FileInfo where
  path : String
  language : String
  contentHash : String
  isTest : Bool

/-- `StructuralOverlayFile`, and the parts of a parsed file that `write_one` stores -/
structure Replacement (J : Type) where
  file : FileInfo
  symbols : List (Symbol J) := []
  references : List Reference := []
  pythonBindings : PythonBindings J := {}
  fingerprints : List FingerprintInput := []
  trustBoundaries : List String := []
  interpretation : String
  source : String

/-- `name_tail`: what follows the separator furthest right -/
def nameTail (s : String) : String :=
  let tails := [['\\'], ['/'], ['.'], [':', ':']].filterMap (afterLast · s.toList)
  String.ofList (tails.foldl (fun best tail => if tail.length < best.length then tail else best) s.toList)

/-- `to_le_bytes` -/
def leBytes (x : UInt64) : List UInt8 := (List.range 8).map fun i => (x >>> UInt64.ofNat (8 * i)).toUInt8

/-- `fp_to_blob` -/
def fpToBlob (fp : List UInt64) : List UInt8 := fp.flatMap leBytes

section Rows

variable {ι α β κ : Type}

/-- An `INSERT`: refused where a row is in its way. -/
def insertRow (blocked : Row ι α → Row ι α → Bool) (rows : List (Row ι α)) (row : Row ι α) :
    Except Failure (List (Row ι α)) :=
  if rows.any (blocked row) then .error .constraint else .ok (rows ++ [row])

/-- A loop of `INSERT`s for one file. -/
def insertRows (cols : β → Except Failure α) (newId : List (Row ι α) → ι) (blocked : Row ι α → Row ι α → Bool)
    (fileId : Int) : List β → List (Row ι α) → Except Failure (List (Row ι α))
  | [], rows => .ok rows
  | x :: xs, rows =>
    (cols x).bind fun c =>
      (insertRow blocked rows ⟨newId rows, fileId, c⟩).bind (insertRows cols newId blocked fileId xs)

/-- An `INSERT OR IGNORE` into `file_trust_boundaries`. -/
def insertOrIgnore (rows : List (Row Unit String)) (row : Row Unit String) : List (Row Unit String) :=
  if rows.contains row then rows else rows ++ [row]

/-- A unique index on the file and a key; rows without a key are outside a partial index. -/
def sameKey [DecidableEq κ] (key : α → Option κ) (new old : Row ι α) : Bool :=
  old.fileId = new.fileId && (key new.cols).isSome && key old.cols = key new.cols

/-- `uq_symbols_identity` -/
def symbolKey (c : SymbolCols) : Option ((String × String × String) × (Nat × Nat) × Nat × Nat) :=
  some ((c.name, c.qualifiedName, c.kind), (c.lineStart, c.lineEnd), c.colStart, c.colEnd)

/-- `uq_refs_identity` -/
def refKey (c : RefCols) : Option (String × String × Nat × Nat) :=
  if c.kind = "route_handler" then none else some (c.toName, c.kind, c.line, c.col)

/-- The primary key of `python_bindings` -/
def bindingKey (c : BindingCols) : Option (String × String × Nat × Nat) := some (c.kind, c.toName, c.line, c.col)

/-- `uq_symfp_identity` -/
def fingerprintKey (c : FingerprintCols) : Option (String × String × Nat × Nat) :=
  some (c.name, c.kind, c.lineStart, c.lineEnd)

end Rows

section Columns

variable {J : Type} (toJson : J → Option String)

/-- `serde_json::to_string(..)?` -/
def serialize (value : J) : Except Failure String :=
  match toJson value with
  | some text => .ok text
  | none => .error .serialize

/-- `.map(serde_json::to_string).transpose()?` -/
def serializeOption : Option J → Except Failure (Option String)
  | some value => (serialize toJson value).map some
  | none => .ok none

/-- The values `insert_symbols` binds -/
def symbolCols (s : Symbol J) : Except Failure SymbolCols :=
  (serializeOption toJson (s.signature.bind (·.arity))).bind fun arity =>
    (serializeOption toJson (s.signature.map (·.parameters))).map fun parameters =>
      { name := s.name, qualifiedName := s.qualifiedName, kind := s.kind, lineStart := s.lineStart,
        lineEnd := s.lineEnd, colStart := s.colStart, colEnd := s.colEnd,
        rationale := (toJson s.rationale).getD "[]", visibility := s.visibility, isTest := s.isTest,
        signature := s.signature.map (·.declaration), arity, parameters,
        returnType := s.signature.bind (·.returns) }

/-- The values `insert_references` binds -/
def refCols (r : Reference) : Except Failure RefCols :=
  .ok { fromSymbol := r.fromSymbol, toName := r.toName, toNameTail := nameTail r.toName, kind := r.kind,
        line := r.line, col := r.col, lazy := r.lazy }

/-- The three loops of `insert_python_bindings`: kind, name, line, column and target -/
def bindingInputs (b : PythonBindings J) : List (BoundReference J) :=
  b.references
    ++ b.exports.map (fun e => { kind := "export", toName := e.1, line := 0, col := 0, target := e.2 })
    ++ b.classes.map fun c =>
      { kind := "class_member", toName := c.qualifiedClass ++ "." ++ c.name, line := c.definitionLine, col := 0,
        target := c.target }

def bindingCols (b : BoundReference J) : Except Failure BindingCols :=
  (serialize toJson b.target).map fun target =>
    { kind := b.kind, toName := b.toName, line := b.line, col := b.col, target }

/-- The values `insert_fingerprints` binds, with the `CHECK` on the length of the blob -/
def fingerprintCols (f : FingerprintInput) : Except Failure FingerprintCols :=
  if (fpToBlob f.fp).length = 512 then
    .ok { name := f.name, kind := f.kind, lineStart := f.lineStart, lineEnd := f.lineEnd,
          leafCount := f.leafCount, fp := fpToBlob f.fp }
  else .error .check

end Columns

section Writers

variable {J : Type} (toJson : J → Option String) (pick : List Int → Int) (now : Int)

/-- An `UPDATE files … WHERE id` -/
def updateFile (t : Tables) (id : Int) (f : FileCols → FileCols) : Tables :=
  { t with files := t.files.map fun row => if row.id = id then { row with cols := f row.cols } else row }

/-- The `INSERT … ON CONFLICT(path) DO UPDATE` of `upsert_file`, and the id it then selects -/
def upsertRow (t : Tables) (file : FileInfo) : Tables × Int :=
  match t.files.find? (·.cols.path = file.path) with
  | some row =>
    (updateFile t row.id fun cols => { cols with
      language := file.language, contentHash := file.contentHash, indexedAt := now, interpretation := none,
      isTest := file.isTest }, row.id)
  | none =>
    let id := pick (fileIds t.files)
    ({ t with files := t.files ++ [⟨id, {
      path := file.path, language := file.language, contentHash := file.contentHash, indexedAt := now,
      boundariesDerivedAt := 0, interpretation := none, isTest := file.isTest }⟩] }, id)

/-- The rows of a file are deleted before it is written again. -/
def clearFile (t : Tables) (id : Int) : Tables :=
  { t with
    symbols := t.symbols.filter (·.fileId ≠ id)
    refs := t.refs.filter (·.fileId ≠ id)
    pythonBindings := t.pythonBindings.filter (·.fileId ≠ id)
    symbolFingerprints := t.symbolFingerprints.filter (·.fileId ≠ id)
    fileTrustBoundaries := t.fileTrustBoundaries.filter (·.fileId ≠ id) }

/-- `upsert_file` -/
def upsertFile (t : Tables) (file : FileInfo) : Tables × Int :=
  let (t, id) := upsertRow pick now t file
  (updateFile (clearFile t id) id fun cols => { cols with boundariesDerivedAt := 0 }, id)

def pickRow {α : Type} (rows : List (Row Int α)) : Int := pick (rows.map (·.id))

/-- `insert_symbols` -/
def insertSymbols (t : Tables) (id : Int) (symbols : List (Symbol J)) : Except Failure Tables :=
  (insertRows (symbolCols toJson) (pickRow pick) (sameKey symbolKey) id symbols t.symbols).map fun rows =>
    { t with symbols := rows }

/-- `insert_references` -/
def insertReferences (t : Tables) (id : Int) (refs : List Reference) : Except Failure Tables :=
  (insertRows refCols (pickRow pick) (sameKey refKey) id refs t.refs).map fun rows => { t with refs := rows }

/-- `insert_python_bindings` -/
def insertPythonBindings (t : Tables) (id : Int) (bindings : PythonBindings J) : Except Failure Tables :=
  (insertRows (bindingCols toJson) (fun _ => ()) (sameKey bindingKey) id (bindingInputs bindings)
    t.pythonBindings).map fun rows => { t with pythonBindings := rows }

/-- `insert_fingerprints` -/
def insertFingerprints (t : Tables) (id : Int) (fps : List FingerprintInput) : Except Failure Tables :=
  (insertRows fingerprintCols (pickRow pick) (sameKey fingerprintKey) id fps t.symbolFingerprints).map fun rows =>
    { t with symbolFingerprints := rows }

/-- `replace_file_trust_boundaries` -/
def replaceFileTrustBoundaries (t : Tables) (id : Int) (tags : List String) : Tables :=
  let t := { t with fileTrustBoundaries := t.fileTrustBoundaries.filter (·.fileId ≠ id) }
  let t := updateFile t id fun cols => { cols with boundariesDerivedAt := now }
  { t with fileTrustBoundaries := tags.foldl (fun rows tag => insertOrIgnore rows ⟨(), id, tag⟩) t.fileTrustBoundaries }

/-- `record_file_interpretation` -/
def recordFileInterpretation (t : Tables) (id : Int) (interpretation : String) : Tables :=
  updateFile t id fun cols => { cols with interpretation := some interpretation }

/-- The structural and derived rows of one file, up to its trust boundaries. -/
def writeRows (t : Tables) (r : Replacement J) : Except Failure (Tables × Int) :=
  let (t, id) := upsertFile pick now t r.file
  (insertSymbols toJson pick t id r.symbols).bind fun t =>
    (insertReferences pick t id r.references).bind fun t =>
      (insertPythonBindings toJson t id r.pythonBindings).bind fun t =>
        (insertFingerprints pick t id r.fingerprints).map fun t =>
          (replaceFileTrustBoundaries now t id r.trustBoundaries, id)

/-- `write_one`: the stamp comes last -/
def writeOne (t : Tables) (r : Replacement J) : Except Failure Tables :=
  (writeRows toJson pick now t r).map fun (t, id) => recordFileInterpretation t id r.interpretation

/-- `DELETE FROM files WHERE path`, with the rows of the file by `ON DELETE CASCADE` -/
def removeFile (t : Tables) (path : String) : Tables :=
  let gone := fileIds (t.files.filter (·.cols.path = path))
  { files := t.files.filter (·.cols.path ≠ path)
    symbols := t.symbols.filter (·.fileId ∉ gone)
    refs := t.refs.filter (·.fileId ∉ gone)
    pythonBindings := t.pythonBindings.filter (·.fileId ∉ gone)
    symbolFingerprints := t.symbolFingerprints.filter (·.fileId ∉ gone)
    fileTrustBoundaries := t.fileTrustBoundaries.filter (·.fileId ∉ gone) }

/-- Every replacement written in turn. -/
def writeAll (write : Tables → Replacement J → Except Failure Tables) :
    List (Replacement J) → Tables → Except Failure Tables
  | [], t => .ok t
  | r :: rest, t => (write t r).bind (writeAll write rest)

/-- The dirty files deleted and the replacements indexed. -/
def reindex (t : Tables) (dirty : List String) (replacements : List (Replacement J)) : Except Failure Tables :=
  writeAll (writeOne toJson pick now) replacements (dirty.foldl removeFile t)

end Writers

end Storage
end CodeSage
