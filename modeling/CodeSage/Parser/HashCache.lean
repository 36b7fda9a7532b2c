import CodeSage.Lib.Steps
import CodeSage.Lib.Table
import Mathlib.Logic.Function.Basic

/-!
# CodeSage.Parser.HashCache

The cache of file hashes (`hash_indexable_file` in `crates/parser/src/discover.rs`, `CachedFileHash` in
`crates/protocol/src/stat_cache.rs`, `replace_file_hash_cache` in `crates/storage/src/db/hash_cache.rs`), interleaved
with the writes of a worktree.

Times are nanoseconds. A write changes its file in place; it sets the change time to the clock, truncated to the
resolution of the filesystem, and leaves any modification time. The hash of a content is a parameter. What a file held when a call took
its `stat` is kept with the call.
-/

namespace CodeSage
namespace Parser
namespace HashCache

open Lib

abbrev Content := List UInt8

/-- `MAX_INDEXABLE_FILE_BYTES` -/
def MAX_INDEXABLE_FILE_BYTES : Nat := 10 * 1024 * 1024

/-- `FileStat` -/
structure FileStat where
  size : Int
  mtimeNs : Int
  ctimeNs : Int
  deriving DecidableEq

/-- `CachedFileHash` -/
structure CachedFileHash where
  stat : FileStat
  contentHash : String
  hashedAtNs : Int
  deriving DecidableEq

/-- The whole second of a time, by `div_euclid`. -/
def second (ns : Int) : Int := ns / 1000000000

/-- `CachedFileHash::reusable` -/
def CachedFileHash.reusable (cached : CachedFileHash) (stat : FileStat) (nowNs : Int) : Bool :=
  let writeSecond := second cached.hashedAtNs
  decide (cached.stat = stat) && decide (cached.hashedAtNs ≤ nowNs) && decide (second stat.mtimeNs < writeSecond)
    && decide (second stat.ctimeNs < writeSecond)

/-- What `fstat` gives of a regular file. -/
structure Metadata where
  len : Nat
  mtime : Int
  mtimeNsec : Int
  ctime : Int
  ctimeNsec : Int
  deriving DecidableEq

/-- `i64::try_from`, and the checked operations on `i64` -/
def toI64 (n : Int) : Option Int := if -9223372036854775808 ≤ n ∧ n ≤ 9223372036854775807 then some n else none

def nanoseconds (secs nsec : Int) : Option Int := do
  let ns ← toI64 (secs * 1000000000)
  toI64 (ns + nsec)

/-- `file_stat` -/
def fileStat (m : Metadata) : Option FileStat := do
  let size ← toI64 m.len
  let mtimeNs ← nanoseconds m.mtime m.mtimeNsec
  let ctimeNs ← nanoseconds m.ctime m.ctimeNsec
  return ⟨size, mtimeNs, ctimeNs⟩

/-- `now_ns`; a clock before the epoch gives no duration. -/
def nowNs (clock : Int) : Option Int := if 0 ≤ clock then toI64 clock else none

structure File where
  content : Content
  mtimeNs : Int
  ctimeNs : Int
  deriving DecidableEq

/-- `IndexableFile::metadata` -/
def File.metadata (f : File) : Metadata :=
  ⟨f.content.length, second f.mtimeNs, f.mtimeNs % 1000000000, second f.ctimeNs, f.ctimeNs % 1000000000⟩

/-- One call of `hash_indexable_file`. -/
inductive Call where
  | absent
  /-- `IndexableFile::open` has taken `before`, when the file held `seen`. -/
  | opened (before : Metadata) (seen : Content)
  | started (before : Metadata) (seen : Content) (started : Option Int)
  /-- before the `verify` of a reuse -/
  | reusing (cached : CachedFileHash) (before : Metadata) (seen : Content)
  /-- before `read_to_end` -/
  | reading (before : Metadata) (started : Option Int)
  /-- before the `verify` of a read -/
  | bytesRead (before : Metadata) (started : Option Int) (bytes : Content)
  /-- The call has returned a hash; `seen` for a reused one. -/
  | hashed (hash : String) (reused : Option Content)

variable {Path : Type}

/-- One discovery run: the cache it was given, its calls, and what they have sent over `cache_tx`. -/
structure Run (Path : Type) where
  cache : Table Path CachedFileHash
  call : Path → Call
  observations : Table Path CachedFileHash

structure State (Path : Type) where
  now : Int
  files : Path → Option File
  /-- the rows of `file_hash_cache` -/
  stored : Table Path CachedFileHash
  runs : Nat → Option (Run Path)

inductive Act (Path : Type) where
  | tick (ns : Nat)
  | write (path : Path) (content : Content) (mtimeNs : Int)
  | start (run : Nat)
  | openFile (run : Nat) (path : Path)
  | advance (run : Nat) (path : Path)
  | fail (run : Nat) (path : Path)
  | finish (run : Nat)
  | abandon (run : Nat)

section Step

variable [DecidableEq Path] (contentHash : Content → String) (resolution : Int)

def Run.setCall (run : Run Path) (path : Path) (call : Call) : Run Path :=
  { run with call := Function.update run.call path call }

def State.setRun (s : State Path) (r : Nat) (run : Option (Run Path)) : State Path :=
  { s with runs := Function.update s.runs r run }

/-- The change time of a write. -/
def truncated (t : Int) : Int := t / resolution * resolution

/-- `IndexableFile::verify` -/
def verified (s : State Path) (path : Path) (before : Metadata) : Bool :=
  decide ((s.files path).map File.metadata = some before)

/-- The call returns a hash and sends its observation. -/
def Run.return (run : Run Path) (path : Path) (hash : String) (observation : Option CachedFileHash)
    (reused : Option Content) : Run Path :=
  let run := run.setCall path (.hashed hash reused)
  match observation with
  | some entry => { run with observations := run.observations.insert path entry }
  | none => run

/-- The choice between reusing the cached hash and reading the file. -/
def choose (cached : Option CachedFileHash) (before : Metadata) (seen : Content) (started : Option Int) : Call :=
  match cached, fileStat before, started with
  | some cached, some stat, some now =>
    if cached.reusable stat now then .reusing cached before seen else .reading before started
  | _, _, _ => .reading before started

/-- What a read that was verified observes. -/
def observe (before : Metadata) (started : Option Int) (hash : String) : Option CachedFileHash :=
  (fileStat before).bind fun stat => started.map fun hashedAtNs => ⟨stat, hash, hashedAtNs⟩

/-- The next step of a call. -/
def advance (s : State Path) (run : Run Path) (path : Path) : Outcome (Run Path) :=
  match run.call path with
  | .absent => .disabled
  | .opened before seen => .next (run.setCall path (.started before seen (nowNs s.now)))
  | .started before seen started => .next (run.setCall path (choose (run.cache.lookup path) before seen started))
  | .reusing cached before seen =>
    if verified s path before then .next (run.return path cached.contentHash (some cached) (some seen))
    else .next (run.setCall path .absent)
  | .reading before started =>
    match s.files path with
    | none => .next (run.setCall path .absent)
    | some file =>
      if file.content.length > MAX_INDEXABLE_FILE_BYTES then .next (run.setCall path .absent)
      else .next (run.setCall path (.bytesRead before started file.content))
  | .bytesRead before started bytes =>
    if verified s path before && bytes.length == before.len then
      .next (run.return path (contentHash bytes) (observe before started (contentHash bytes)) none)
    else .next (run.setCall path .absent)
  | .hashed _ _ => .disabled

/-- `replace_file_hash_cache`; an upsert of a row that is there changes nothing. -/
def replaceFileHashCache (previous entries : Table Path CachedFileHash) : Table Path CachedFileHash :=
  entries.rows.foldl
    (fun table row => if previous.lookup row.1 = some row.2 then table else table.insert row.1 row.2)
    (previous.deleteWhere fun path => (entries.lookup path).isNone)

def step (s : State Path) : Act Path → Outcome (State Path)
  | .tick ns => .next { s with now := s.now + ns }
  | .write path content mtimeNs =>
    .next { s with files := Function.update s.files path (some ⟨content, mtimeNs, truncated resolution s.now⟩) }
  | .start r =>
    match s.runs r with
    | none => .next (s.setRun r (some ⟨s.stored, fun _ => .absent, ∅⟩))
    | some _ => .disabled
  | .openFile r path =>
    match s.runs r, s.files path with
    | some run, some file =>
      match run.call path with
      | .absent =>
        if file.content.length > MAX_INDEXABLE_FILE_BYTES then .next s
        else .next (s.setRun r (some (run.setCall path (.opened file.metadata file.content))))
      | _ => .disabled
    | _, _ => .disabled
  | .advance r path =>
    match s.runs r with
    | none => .disabled
    | some run => (advance contentHash s run path).andThen fun run' => .next (s.setRun r (some run'))
  | .fail r path =>
    match s.runs r with
    | none => .disabled
    | some run => .next (s.setRun r (some (run.setCall path .absent)))
  | .finish r =>
    match s.runs r with
    | none => .disabled
    | some run => .next { s.setRun r none with stored := replaceFileHashCache s.stored run.observations }
  | .abandon r => .next (s.setRun r none)

end Step

/-- Nothing is cached and no run has started. -/
structure Initial (s : State Path) : Prop where
  stored : s.stored = ∅
  runs : ∀ r, s.runs r = none

end HashCache
end Parser
end CodeSage
