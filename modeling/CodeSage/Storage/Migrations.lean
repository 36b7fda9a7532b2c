import CodeSage.Lib.Steps
import CodeSage.Lib.Text
import Mathlib.Logic.Function.Basic

/-!
# CodeSage.Storage.Migrations

Opening an index (`init_db` in `crates/storage/src/schema.rs`): the repair of `semantic_files`, the statements of `SCHEMA`, and
the registry of migrations. Several openers, of several versions of the program, work on one index; each of their statements is
one step, and each may fail.

`Event` and `replay` say what a run has committed, one event per commit.
-/

namespace CodeSage
namespace Storage
namespace Migrations

open Lib

section Model

variable {σ : Type}

/-- An entry of `MIGRATIONS`. The body may fail. -/
structure Migration (σ : Type) where
  name : Text
  up : σ → Option σ

/-- A version of the program. -/
structure Binary (σ : Type) where
  /-- `MIGRATIONS` -/
  migrations : List (Migration σ)
  /-- `SUPERSEDED_MIGRATIONS` -/
  superseded : List Text
  /-- The statements of `SCHEMA`. -/
  schema : List (σ → Option σ)
  /-- `semantic_files` exists and has not the shape writers rely on. -/
  malformed : σ → Bool
  /-- `semantic_files` made anew, empty. -/
  rebuild : σ → Option σ

/-- The table `schema_migrations`, where there is one, and all the rest. -/
structure Database (σ : Type) where
  registry : Option (List Text)
  content : σ
  deriving DecidableEq

def Database.names (db : Database σ) : List Text := db.registry.getD []

/-- `BREAKING_MIGRATION_PREFIX` -/
def breakingPrefix : Text := "breaking_".toList

def knows (bin : Binary σ) (name : Text) : Bool := bin.migrations.any (fun m => m.name == name) || bin.superseded.contains name

/-- `unknown_migrations` -/
def unknownMigrations (bin : Binary σ) (db : Database σ) : List Text := db.names.filter fun name => !knows bin name

/-- `migrated_by_newer_binary` -/
def migratedByNewerBinary (bin : Binary σ) (db : Database σ) : Bool := !(unknownMigrations bin db).isEmpty

/-- `refuse_breaking_unknown_migrations` -/
def refuses (bin : Binary σ) (db : Database σ) : Bool := (unknownMigrations bin db).any breakingPrefix.isPrefixOf

/-- Where an opener is. -/
inductive Pc (σ : Type) where
  | refuse
  | probeNewer
  | probeShape
  | beginRebuild
  | recheck
  | commitRebuild (content : Option σ)
  | schema (stmts : List (σ → Option σ))
  | registry
  | probe (rest : List (Migration σ))
  | beginTx (m : Migration σ) (rest : List (Migration σ))
  | reprobe (m : Migration σ) (rest : List (Migration σ))
  | body (m : Migration σ) (rest : List (Migration σ))
  | commitTx (m : Migration σ) (rest : List (Migration σ)) (names : List Text) (content : σ)
  | forget (names : List Text)
  | check
  | opened
  | failed

/-- The opener holds the write lock. -/
def Pc.locked : Pc σ → Bool
  | .recheck | .commitRebuild _ | .reprobe _ _ | .body _ _ | .commitTx _ _ _ _ => true
  | _ => false

def Pc.ended : Pc σ → Bool
  | .opened | .failed => true
  | _ => false

def Pc.isOpened : Pc σ → Bool
  | .opened => true
  | _ => false

/-- What an opener has committed. -/
inductive Event (σ : Type) where
  | rebuilt
  | created (stmt : σ → Option σ)
  | registered
  | migrated (m : Migration σ)
  | forgot (name : Text)

structure Shared (σ : Type) where
  db : Database σ
  lock : Option Nat
  log : List (Nat × Event σ)

def Shared.commit (sh : Shared σ) (who : Nat) (event : Event σ) (db : Database σ) : Shared σ :=
  { db, lock := none, log := sh.log ++ [(who, event)] }

def Shared.release (sh : Shared σ) : Shared σ := { sh with lock := none }

variable [DecidableEq σ]

/-- `init_db`, `rebuild_malformed_semantic_files`, `run_migration_list`; `none` where the opener waits for the lock or has ended. -/
def advance (bin : Binary σ) (who : Nat) (sh : Shared σ) : Pc σ → Option (Shared σ × Pc σ)
  | .refuse => some (sh, if refuses bin sh.db then .failed else .probeNewer)
  | .probeNewer => some (sh, if migratedByNewerBinary bin sh.db then .schema bin.schema else .probeShape)
  | .probeShape => some (sh, if bin.malformed sh.db.content then .beginRebuild else .schema bin.schema)
  | .beginRebuild => if sh.lock.isNone then some ({ sh with lock := some who }, .recheck) else none
  | .recheck =>
    -- another opener may have repaired it, or a newer binary migrated it
    if migratedByNewerBinary bin sh.db || !bin.malformed sh.db.content then some (sh, .commitRebuild none)
    else
      match bin.rebuild sh.db.content with
      | some content => some (sh, .commitRebuild (some content))
      | none => some (sh.release, .failed)
  | .commitRebuild none => some (sh.release, .schema bin.schema)
  | .commitRebuild (some content) => some (sh.commit who .rebuilt { sh.db with content }, .schema bin.schema)
  | .schema [] => some (sh, .registry)
  | .schema (stmt :: stmts) =>
    match stmt sh.db.content with
    | none => some (sh, .failed)
    | some content =>
      -- a statement with nothing to do writes nothing
      if content = sh.db.content then some (sh, .schema stmts)
      else if sh.lock.isNone then some (sh.commit who (.created stmt) { sh.db with content }, .schema stmts)
      else none
  | .registry =>
    if sh.db.registry.isSome then some (sh, .probe bin.migrations)
    else if sh.lock.isNone then some (sh.commit who .registered { sh.db with registry := some [] }, .probe bin.migrations)
    else none
  | .probe [] => some (sh, .forget bin.superseded)
  | .probe (m :: rest) =>
    match sh.db.registry with
    | none => some (sh, .failed)
    | some names => some (sh, if m.name ∈ names then .probe rest else .beginTx m rest)
  | .beginTx m rest => if sh.lock.isNone then some ({ sh with lock := some who }, .reprobe m rest) else none
  | .reprobe m rest =>
    match sh.db.registry with
    | none => some (sh.release, .failed)
    | some names => if m.name ∈ names then some (sh.release, .probe rest) else some (sh, .body m rest)
  | .body m rest =>
    match m.up sh.db.content with
    | none => some (sh.release, .failed)
    | some content => some (sh, .commitTx m rest (if m.name ∈ sh.db.names then sh.db.names else sh.db.names ++ [m.name]) content)
  | .commitTx m rest names content => some (sh.commit who (.migrated m) ⟨some names, content⟩, .probe rest)
  | .forget [] => some (sh, .check)
  | .forget (name :: names) =>
    if sh.lock.isNone then
      some (sh.commit who (.forgot name) { sh.db with registry := sh.db.registry.map (·.filter fun other => other ≠ name) }, .forget names)
    else none
  | .check => some (sh, if refuses bin sh.db then .failed else .opened)
  | .opened => none
  | .failed => none

structure State (σ : Type) where
  shared : Shared σ
  pcs : Nat → Pc σ

/-- One statement of an opener, or, with `true`, its failure or its end: what it has not committed is rolled back. -/
def step (bins : Nat → Binary σ) (s : State σ) (label : Nat × Bool) : Outcome (State σ) :=
  let (who, fails) := label
  if fails then
    if (s.pcs who).ended then .disabled
    else
      .next
        { shared := if (s.pcs who).locked then s.shared.release else s.shared
          pcs := Function.update s.pcs who .failed }
  else
    match advance (bins who) who s.shared (s.pcs who) with
    | some (shared, pc) => .next ⟨shared, Function.update s.pcs who pc⟩
    | none => .disabled

def start (db : Database σ) : State σ := ⟨⟨db, none, []⟩, fun _ => .refuse⟩

end Model

section Commits

variable {σ : Type}

/-- What an event does to an index. -/
def Event.apply (bin : Binary σ) (db : Database σ) : Event σ → Option (Database σ)
  | .rebuilt => (bin.rebuild db.content).map fun content => { db with content }
  | .created stmt => (stmt db.content).map fun content => { db with content }
  | .registered => some { db with registry := some [] }
  | .migrated m => (m.up db.content).map fun content => ⟨some (db.names ++ [m.name]), content⟩
  | .forgot name => some { db with registry := db.registry.map (·.filter fun other => other ≠ name) }

def replay (bins : Nat → Binary σ) (db : Database σ) (log : List (Nat × Event σ)) : Option (Database σ) :=
  log.foldlM (fun db entry => entry.2.apply (bins entry.1) db) db

end Commits

end Migrations
end Storage
end CodeSage
