import Mathlib.Algebra.Order.Ring.Int
import Mathlib.Data.List.Basic
import Mathlib.Data.List.Nodup

/-!
# CodeSage.Storage.Tables

The structural tables of the index (`crates/storage/src/schema.rs`): files, and five tables whose rows
belong to a file. A row is its id, the id of its file and its other columns; where the source reads
text it wrote from an enumeration or a JSON value, the column holds that text.

The content of the tables is what is left when row ids are erased and file ids are replaced by paths.
-/

namespace CodeSage
namespace Storage

/-- A row of `files` without its id -/
structure FileCols where
  path : String
  language : String
  contentHash : String
  indexedAt : Int
  boundariesDerivedAt : Int
  interpretation : Option String
  isTest : Bool
  deriving DecidableEq, Repr

structure FileRow where
  id : Int
  cols : FileCols
  deriving DecidableEq, Repr

structure SymbolCols where
  name : String
  qualifiedName : String
  kind : String
  lineStart : Nat
  lineEnd : Nat
  colStart : Nat
  colEnd : Nat
  rationale : String
  visibility : Option String
  isTest : Bool
  signature : Option String
  arity : Option String
  parameters : Option String
  returnType : Option String
  deriving DecidableEq, Repr

structure RefCols where
  fromSymbol : Option String
  toName : String
  toNameTail : String
  kind : String
  line : Nat
  col : Nat
  lazy : Bool
  deriving DecidableEq, Repr

structure BindingCols where
  kind : String
  toName : String
  line : Nat
  col : Nat
  target : String
  deriving DecidableEq, Repr

structure FingerprintCols where
  name : String
  kind : String
  lineStart : Nat
  lineEnd : Nat
  leafCount : Nat
  fp : List UInt8
  deriving DecidableEq, Repr

/-- A row of a table that belongs to a file. Tables whose row id nothing reads have `ι := Unit`. -/
structure Row (ι α : Type) where
  id : ι
  fileId : Int
  cols : α
  deriving DecidableEq, Repr

structure Tables where
  files : List FileRow := []
  symbols : List (Row Int SymbolCols) := []
  refs : List (Row Int RefCols) := []
  pythonBindings : List (Row Unit BindingCols) := []
  symbolFingerprints : List (Row Int FingerprintCols) := []
  fileTrustBoundaries : List (Row Unit String) := []
  deriving DecidableEq, Repr

/-- What is written for one file. -/
structure Payload where
  file : FileCols
  symbols : List SymbolCols
  refs : List RefCols
  pythonBindings : List BindingCols
  symbolFingerprints : List FingerprintCols
  fileTrustBoundaries : List String

/-- The rows of the tables, without ids: each row of a file stands under its path. -/
structure Content where
  files : List FileCols
  symbols : List (Option String × SymbolCols)
  refs : List (Option String × RefCols)
  pythonBindings : List (Option String × BindingCols)
  symbolFingerprints : List (Option String × FingerprintCols)
  fileTrustBoundaries : List (Option String × String)
  deriving DecidableEq, Repr

def fileIds (files : List FileRow) : List Int := files.map (·.id)

def filePaths (files : List FileRow) : List String := files.map (·.cols.path)

def pathOf (files : List FileRow) (id : Int) : Option String := (files.find? (·.id = id)).map (·.cols.path)

def byPath {ι α : Type} (files : List FileRow) (rows : List (Row ι α)) : List (Option String × α) :=
  rows.map fun r => (pathOf files r.fileId, r.cols)

def Tables.content (t : Tables) : Content where
  files := t.files.map (·.cols)
  symbols := byPath t.files t.symbols
  refs := byPath t.files t.refs
  pythonBindings := byPath t.files t.pythonBindings
  symbolFingerprints := byPath t.files t.symbolFingerprints
  fileTrustBoundaries := byPath t.files t.fileTrustBoundaries

def Payload.content (p : Payload) : Content where
  files := [p.file]
  symbols := p.symbols.map (some p.file.path, ·)
  refs := p.refs.map (some p.file.path, ·)
  pythonBindings := p.pythonBindings.map (some p.file.path, ·)
  symbolFingerprints := p.symbolFingerprints.map (some p.file.path, ·)
  fileTrustBoundaries := p.fileTrustBoundaries.map (some p.file.path, ·)

def Content.append (a b : Content) : Content where
  files := a.files ++ b.files
  symbols := a.symbols ++ b.symbols
  refs := a.refs ++ b.refs
  pythonBindings := a.pythonBindings ++ b.pythonBindings
  symbolFingerprints := a.symbolFingerprints ++ b.symbolFingerprints
  fileTrustBoundaries := a.fileTrustBoundaries ++ b.fileTrustBoundaries

section Sound

variable {ι α : Type} {files : List FileRow} {rows rows' : List (Row ι α)} {id : Int} {cs : List α}

/-- Every row belongs to a file of the table. -/
def Owned (files : List FileRow) (rows : List (Row ι α)) : Prop := ∀ r ∈ rows, r.fileId ∈ fileIds files

/-- Ids and paths are unique and no row is without its file. -/
structure Tables.Sound (t : Tables) : Prop where
  ids : (fileIds t.files).Nodup
  paths : (filePaths t.files).Nodup
  symbols : Owned t.files t.symbols
  refs : Owned t.files t.refs
  pythonBindings : Owned t.files t.pythonBindings
  symbolFingerprints : Owned t.files t.symbolFingerprints
  fileTrustBoundaries : Owned t.files t.fileTrustBoundaries
  symbolIds : (t.symbols.map (·.id)).Nodup
  refIds : (t.refs.map (·.id)).Nodup
  fingerprintIds : (t.symbolFingerprints.map (·.id)).Nodup

/-- `rows'` has the rows `cs` of the file `id` after `rows`. -/
def Appends (id : Int) (cs : List α) (rows rows' : List (Row ι α)) : Prop :=
  ∃ new, rows' = rows ++ new ∧ (∀ r ∈ new, r.fileId = id) ∧ new.map (·.cols) = cs

theorem Appends.nil : Appends id [] rows rows := ⟨[], by simp, by simp, rfl⟩

theorem Appends.snoc {row : Row ι α} (h : Appends id cs rows rows') (hrow : row.fileId = id) :
    Appends id (cs ++ [row.cols]) rows (rows' ++ [row]) := by
  obtain ⟨new, rfl, hnew, rfl⟩ := h
  refine ⟨new ++ [row], by simp, fun r hr => ?_, by simp⟩
  obtain hr | hr := List.mem_append.mp hr
  · exact hnew r hr
  · rw [List.mem_singleton.mp hr]
    exact hrow

theorem fileIds_append (files : List FileRow) (row : FileRow) : fileIds (files ++ [row]) = fileIds files ++ [row.id] :=
  List.map_append

theorem pathOf_append_old {row : FileRow} {owner : Int} (h : owner ∈ fileIds files) :
    pathOf (files ++ [row]) owner = pathOf files owner := by
  obtain ⟨f, hf, rfl⟩ := List.mem_map.mp h
  have hsome : (files.find? (·.id = f.id)).isSome = true := List.find?_isSome.mpr ⟨f, hf, by simp⟩
  rw [pathOf, List.find?_append, Option.or_of_isSome hsome, pathOf]

theorem pathOf_append_new {row : FileRow} (h : row.id ∉ fileIds files) :
    pathOf (files ++ [row]) row.id = some row.cols.path := by
  have hnone : files.find? (·.id = row.id) = none := by
    rw [List.find?_eq_none]
    intro f hf hid
    exact h (List.mem_map.mpr ⟨f, hf, of_decide_eq_true hid⟩)
  rw [pathOf, List.find?_append, hnone]
  simp

/-- Rows written under a new file leave the others under theirs. -/
theorem byPath_appends {row : FileRow} (hfresh : row.id ∉ fileIds files) (howned : Owned files rows)
    (h : Appends row.id cs rows rows') :
    byPath (files ++ [row]) rows' = byPath files rows ++ cs.map (some row.cols.path, ·) := by
  obtain ⟨new, rfl, hnew, rfl⟩ := h
  rw [byPath, List.map_append, List.map_map]
  congr 1
  · exact List.map_congr_left fun r hr => by rw [pathOf_append_old (howned r hr)]
  · exact List.map_congr_left fun r hr => by rw [hnew r hr, pathOf_append_new hfresh]; rfl

theorem owned_appends {row : FileRow} (howned : Owned files rows) (h : Appends row.id cs rows rows') :
    Owned (files ++ [row]) rows' := by
  obtain ⟨new, rfl, hnew, -⟩ := h
  intro r hr
  rw [fileIds_append]
  obtain hr | hr := List.mem_append.mp hr
  · exact List.mem_append_left _ (howned r hr)
  · rw [hnew r hr]
    exact List.mem_append_right _ (List.mem_singleton_self row.id)

/-- `t'` is `t` with one more file and what is written for it. -/
structure Extends (t t' : Tables) (p : Payload) (id : Int) : Prop where
  fresh : id ∉ fileIds t.files
  freshPath : p.file.path ∉ filePaths t.files
  files : t'.files = t.files ++ [⟨id, p.file⟩]
  symbols : Appends id p.symbols t.symbols t'.symbols
  refs : Appends id p.refs t.refs t'.refs
  pythonBindings : Appends id p.pythonBindings t.pythonBindings t'.pythonBindings
  symbolFingerprints : Appends id p.symbolFingerprints t.symbolFingerprints t'.symbolFingerprints
  fileTrustBoundaries : Appends id p.fileTrustBoundaries t.fileTrustBoundaries t'.fileTrustBoundaries
  symbolIds : (t'.symbols.map (·.id)).Nodup
  refIds : (t'.refs.map (·.id)).Nodup
  fingerprintIds : (t'.symbolFingerprints.map (·.id)).Nodup

variable {t t' : Tables} {p : Payload}

theorem Extends.content (h : Extends t t' p id) (ht : t.Sound) : t'.content = t.content.append p.content := by
  simp only [Tables.content, Content.append, Payload.content, h.files]
  rw [byPath_appends h.fresh ht.symbols h.symbols, byPath_appends h.fresh ht.refs h.refs,
    byPath_appends h.fresh ht.pythonBindings h.pythonBindings,
    byPath_appends h.fresh ht.symbolFingerprints h.symbolFingerprints,
    byPath_appends h.fresh ht.fileTrustBoundaries h.fileTrustBoundaries]
  simp

theorem Extends.sound (h : Extends t t' p id) (ht : t.Sound) : t'.Sound where
  ids := by
    rw [h.files, fileIds_append]
    exact List.Nodup.append ht.ids (List.nodup_singleton _) (by simpa using h.fresh)
  paths := by
    rw [h.files, filePaths, List.map_append]
    exact List.Nodup.append ht.paths (List.nodup_singleton _) (by simpa [filePaths] using h.freshPath)
  symbols := h.files ▸ owned_appends ht.symbols h.symbols
  refs := h.files ▸ owned_appends ht.refs h.refs
  pythonBindings := h.files ▸ owned_appends ht.pythonBindings h.pythonBindings
  symbolFingerprints := h.files ▸ owned_appends ht.symbolFingerprints h.symbolFingerprints
  fileTrustBoundaries := h.files ▸ owned_appends ht.fileTrustBoundaries h.fileTrustBoundaries
  symbolIds := h.symbolIds
  refIds := h.refIds
  fingerprintIds := h.fingerprintIds

end Sound

end Storage
end CodeSage
