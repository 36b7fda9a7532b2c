import CodeSage.Lib.Steps
import CodeSage.Lib.Table
import CodeSage.Lib.Checked
import CodeSage.Mcp.WorkState
import Mathlib.Data.List.MinMax

/-!
# CodeSage.Mcp.Overview

The ranking cache of the daemon (`crates/cli/src/mcp/overview_cache.rs`) as a transition system. A step is
one critical section of the cache mutex, one access to the file system or to an index file, or one write of
a control's reason; requests, producers, probe workers and the writers of the index interleave freely.

From the section in which a call of `get` registers with a flight it counts as holding its `WaiterGuard`,
and the producer of a flight that it made is there to run: no await point lies in between. A probe holds its
slot's observer mutex by having taken the content out of `slots`.

A path check sees the path at one moment. What a probe saw is kept in `readings`, which no code reads.
-/

namespace CodeSage
namespace Mcp
namespace Overview

open Lib Protocol

def MAX_PROJECTS : Nat := 32

def MAX_PAYLOAD : Nat := 2 * 1024 * 1024

/-- `(device, inode)` -/
abbrev FileIdentity := Nat

structure Generation where
  identity : FileIdentity
  epoch : Nat
  version : Int
  config : Option String
  recurrence : Bool
  deriving DecidableEq, Repr

structure Observer where
  /-- the file that the connection has open -/
  connection : FileIdentity
  identity : FileIdentity
  epoch : Nat
  deriving DecidableEq, Repr

/-- What the cache looks at: the file at each index path, the committed states of every file, the configs,
`CODESAGE_COUPLING_RECURRENCE`, and the files that observers were opened on, one for every epoch. -/
structure World (α : Type) where
  path : PathBuf → FileIdentity
  files : FileIdentity → List α
  config : PathBuf → Option String
  recurrence : Bool
  epochs : List FileIdentity

def World.commits {α : Type} (w : World α) (file : FileIdentity) : Nat := (w.files file).length

/-- `NEXT_EPOCH` starts at 1. -/
def World.opened {α : Type} (w : World α) (epoch : Nat) : Option FileIdentity := w.epochs[epoch - 1]?

/-- What SQLite and the ranking compute. -/
structure Library (α ρ : Type) where
  /-- `top_risk_ranking_with_policy` on a snapshot -/
  rank : α → Bool → ρ
  rankingBytes : ρ → Nat
  /-- `PRAGMA data_version` of an observer's connection when its file has so many commits -/
  dataVersion : Nat → Nat → Int

section Probes

/-- `CacheUnavailable`, or any other error. -/
inductive ProbeError where
  | unavailable
  | other
  deriving DecidableEq, Repr

/-- What a probe saw: the commits of the observed file when its version was read, and the file at the path at
the last check, with its commits then. -/
structure Sight where
  commits : Nat
  file : FileIdentity
  present : Nat
  deriving DecidableEq, Repr

/-- `ProjectSlot::generation` in progress; from `compare` on it holds the observer mutex. -/
inductive Probe where
  | readConfig
  | readIdentity (config : Option String)
  | lock (config : Option String) (identity : FileIdentity)
  | compare (config : Option String) (identity : FileIdentity) (observer : Option Observer)
  | opening (config : Option String) (identity : FileIdentity)
  | attestIdentity (config : Option String) (identity connection : FileIdentity)
  | attestPath (config : Option String) (identity connection : FileIdentity)
  | readVersion (config : Option String) (identity : FileIdentity) (observer : Observer)
  | checkIdentity (config : Option String) (identity : FileIdentity) (observer : Observer) (version : Int)
      (commits : Nat)
  | checkPath (config : Option String) (identity : FileIdentity) (observer : Observer) (version : Int)
      (commits : Nat)
  | readPolicy (config : Option String) (identity : FileIdentity) (observer : Observer) (version : Int) (sight : Sight)

inductive ProbeResult where
  | running (probe : Probe)
  | failed (error : ProbeError)
  | found (generation : Generation) (sight : Sight)

/-- The content of the observer mutex; `none` while a probe holds it. -/
abbrev ObserverLock := Option (Option Observer)

structure ProbeMove (α : Type) where
  world : World α
  observer : ObserverLock
  result : ProbeResult

/-- One access of a probe of the index at `path`; `none` while the mutex is taken. -/
def Probe.step {α : Type} (dataVersion : Nat → Nat → Int) (w : World α) (project : PathBuf)
    (observer : ObserverLock) : Probe → Option (ProbeMove α)
  | .readConfig => some ⟨w, observer, .running (.readIdentity (w.config project))⟩
  | .readIdentity config => some ⟨w, observer, .running (.lock config (w.path project))⟩
  | .lock config identity => observer.map fun o => ⟨w, none, .running (.compare config identity o)⟩
  | .compare config identity none => some ⟨w, none, .running (.opening config identity)⟩
  | .compare config identity (some o) =>
    if o.identity ≠ identity ∨ o.connection ≠ w.path project then
      some ⟨w, none, .running (.opening config identity)⟩
    else some ⟨w, none, .running (.readVersion config identity o)⟩
  | .opening config identity => some ⟨w, none, .running (.attestIdentity config identity (w.path project))⟩
  | .attestIdentity config identity connection =>
    if w.path project = identity then some ⟨w, none, .running (.attestPath config identity connection)⟩
    else some ⟨w, some none, .failed .unavailable⟩
  | .attestPath config identity connection =>
    if w.path project = connection then
      some ⟨{ w with epochs := w.epochs ++ [connection] }, none,
        .running (.readVersion config identity ⟨connection, identity, w.epochs.length + 1⟩)⟩
    else some ⟨w, some none, .failed .unavailable⟩
  | .readVersion config identity o =>
    some ⟨w, none, .running (.checkIdentity config identity o (dataVersion o.epoch (w.commits o.connection))
      (w.commits o.connection))⟩
  | .checkIdentity config identity o version commits =>
    if w.path project = identity then some ⟨w, none, .running (.checkPath config identity o version commits)⟩
    else some ⟨w, some (some o), .failed .unavailable⟩
  | .checkPath config identity o version commits =>
    if w.path project = o.connection then
      some ⟨w, none, .running (.readPolicy config identity o version
        ⟨commits, w.path project, w.commits (w.path project)⟩)⟩
    else some ⟨w, some (some o), .failed .unavailable⟩
  | .readPolicy config identity o version sight =>
    some ⟨w, some (some o), .found ⟨identity, o.epoch, version, config, w.recurrence⟩ sight⟩

/-- The mutex after an error. -/
def Probe.release (observer : ObserverLock) : Probe → ObserverLock
  | .compare _ _ o => some o
  | .opening _ _ => some none
  | .attestIdentity _ _ _ => some none
  | .attestPath _ _ _ => some none
  | .readVersion _ _ o => some (some o)
  | .checkIdentity _ _ o _ _ => some (some o)
  | .checkPath _ _ o _ _ => some (some o)
  | .readPolicy _ _ o _ _ => some (some o)
  | _ => observer

end Probes

section State

variable {α ρ : Type}

structure CachedRanking (ρ : Type) where
  ranking : ρ
  generation : Generation
  stable : Bool

structure Ready (ρ : Type) where
  ranking : ρ
  generation : Generation
  bytes : Nat

/-- The task that `spawn` starts. `db` is the file that `Database::open_read_only` opened. -/
inductive Producer (α ρ : Type) where
  | queued
  | before (probe : Probe)
  | openDb (before : Generation)
  | snapshot (before : Generation) (db : FileIdentity)
  | rank (before : Generation) (db : FileIdentity) (state : α)
  | after (before : Generation) (db : FileIdentity) (ranking : ρ) (probe : Probe)
  | attest (before : Generation) (db : FileIdentity) (ranking : ρ) (after : Option Generation)
  | check (before : Generation) (ranking : ρ) (after : Option Generation) (attested : Bool)
  | done (result : Option (CachedRanking ρ))
  | completed

/-- A result is `none` for an error. -/
structure Flight (α ρ : Type) where
  project : PathBuf
  slot : Nat
  generation : Generation
  reason : Option StopReason := none
  waiters : Nat := 1
  abandoned : Bool := false
  result : Option (Option (CachedRanking ρ)) := none
  retired : Bool := false
  producer : Producer α ρ := .queued

structure ProjectEntry (ρ : Type) where
  slot : Nat
  ready : Option (Ready ρ) := none
  flight : Option Nat := none
  touched : Nat

def ProjectEntry.readyBytes (entry : ProjectEntry ρ) : Nat := (entry.ready.map Ready.bytes).getD 0

structure CacheState (ρ : Type) where
  projects : Table PathBuf (ProjectEntry ρ) := ∅
  sequence : Nat := 0
  bytes : Nat := 0
  retired : Nat := 0

/-- A call of `get`. `reply` is `none` for an error and for a dropped future. -/
inductive Pc (ρ : Type) where
  | start
  | slotted (slot : Nat)
  | probing (slot probed : Nat) (probe : Probe)
  /-- a dropped call whose probe worker runs on -/
  | detached (probed : Nat) (probe : Probe)
  | found (slot : Nat) (generation : Generation)
  | waiting (flight : Nat) (slot : Option Nat)
  | answered (flight : Nat) (slot : Option Nat) (reply : Option (CachedRanking ρ))
  | cancelling (flight : Nat) (reply : Option (CachedRanking ρ))
  | returned (reply : Option (CachedRanking ρ))

structure Call (ρ : Type) where
  project : PathBuf
  pc : Pc ρ := .start

inductive Actor where
  | call (i : Nat)
  | before (flight : Nat)
  | after (flight : Nat)
  deriving DecidableEq, Repr

/-- A probe that ended well. -/
structure Reading where
  actor : Actor
  generation : Generation
  sight : Sight
  deriving DecidableEq, Repr

structure Sys (α ρ : Type) where
  world : World α
  slots : Nat → ObserverLock := fun _ => some none
  cache : CacheState ρ := {}
  flights : Table Nat (Flight α ρ) := ∅
  calls : Table Nat (Call ρ) := ∅
  readings : List Reading := []

end State

section Slots

variable {α ρ : Type}

def sameSlot (slot slot' : Nat) : Nat := if slot = slot' then 1 else 0

/-- The references to a slot that a call has. -/
def Pc.holds (slot : Nat) : Pc ρ → Nat
  | .slotted slot' => sameSlot slot slot'
  | .probing slot' probed _ => sameSlot slot slot' + sameSlot slot probed
  | .detached probed _ => sameSlot slot probed
  | .found slot' _ => sameSlot slot slot'
  | .waiting _ (some slot') => sameSlot slot slot'
  | .answered _ (some slot') _ => sameSlot slot slot'
  | _ => 0

/-- The reference that a producer has until its result is there. -/
def Flight.holds (slot : Nat) (flight : Flight α ρ) : Nat :=
  match flight.producer with
  | .done _ => 0
  | .completed => 0
  | _ => sameSlot slot flight.slot

/-- `Arc::strong_count` of a slot that is in an entry -/
def Sys.strongCount (s : Sys α ρ) (slot : Nat) : Nat :=
  1 + Table.total (fun _ call => Pc.holds slot call.pc) s.calls + Table.total (fun _ flight => flight.holds slot) s.flights

/-- `min_by_key(|(_, entry)| entry.touched)` -/
def leastTouched (rows : List (PathBuf × ProjectEntry ρ)) : Option (PathBuf × ProjectEntry ρ) :=
  rows.argmin fun row => row.2.touched

/-- Room for one more project; `none` is an underflow, `some none` the error `Saturated`. -/
def CacheState.makeRoom (strongCount : Nat → Nat) (state : CacheState ρ) : Option (Option (CacheState ρ)) :=
  if MAX_PROJECTS ≤ state.projects.keys.length then
    match leastTouched (state.projects.rows.filter fun row => row.2.flight.isNone && strongCount row.2.slot == 1) with
    | none => some none
    | some (path, entry) => do
      let bytes ← usizeSub state.bytes entry.readyBytes
      return some { state with projects := state.projects.erase path, bytes := bytes }
  else some (some state)

/-- `slot`; the slot is `none` for an error. -/
def CacheState.slot (strongCount : Nat → Nat) (state : CacheState ρ) (project : PathBuf) :
    Option (CacheState ρ × Option Nat) :=
  let sequence := state.sequence + 1
  let state := { state with sequence := sequence }
  match state.projects.lookup project with
  | some entry =>
    some ({ state with projects := state.projects.insert project { entry with touched := sequence } }, some entry.slot)
  | none =>
    match state.makeRoom strongCount with
    | none => none
    | some none => some (state, none)
    | some (some state) =>
      some ({ state with projects := state.projects.insert project { slot := sequence, touched := sequence } },
        some sequence)

end Slots

section Flights

variable {α ρ : Type}

def Sys.setPc (s : Sys α ρ) (i : Nat) (project : PathBuf) (pc : Pc ρ) : Sys α ρ :=
  { s with calls := s.calls.insert i ⟨project, pc⟩ }

def Sys.setFlight (s : Sys α ρ) (f : Nat) (flight : Flight α ρ) : Sys α ρ :=
  { s with flights := s.flights.insert f flight }

/-- The ready ranking of an entry, if it is of that generation. -/
def ProjectEntry.hit (entry : ProjectEntry ρ) (generation : Generation) : Option ρ :=
  entry.ready.bind fun ready => if ready.generation = generation then some ready.ranking else none

/-- The flight of an entry that a call can join. -/
def Sys.existing (s : Sys α ρ) (entry : ProjectEntry ρ) (generation : Generation) : Option (Nat × Flight α ρ) :=
  entry.flight.bind fun f => (s.flights.lookup f).bind fun flight =>
    if flight.generation = generation ∧ flight.abandoned = false then some (f, flight) else none

/-- The flight that a new one replaces is retired. -/
def Sys.retire (s : Sys α ρ) (previous : Option Nat) : Sys α ρ :=
  match previous.bind fun f => (s.flights.lookup f).map fun flight => (f, flight) with
  | none => s
  | some (f, flight) =>
    { s with
      flights := s.flights.insert f { flight with retired := true }
      cache := { s.cache with retired := s.cache.retired + 1 } }

/-- The critical section of `get`. -/
def Sys.enter (s : Sys α ρ) (i : Nat) (project : PathBuf) (slot : Nat) (generation : Generation) : Sys α ρ :=
  let id := s.cache.sequence + 1
  let s := { s with cache := { s.cache with sequence := id } }
  match s.cache.projects.lookup project with
  | none => s.setPc i project (.returned none)
  | some entry =>
    match entry.hit generation with
    | some ranking => s.setPc i project (.returned (some ⟨ranking, generation, true⟩))
    | none =>
      match s.existing entry generation with
      | some (f, flight) =>
        (s.setFlight f { flight with waiters := flight.waiters + 1 }).setPc i project (.waiting f (some slot))
      | none =>
        let s := s.retire entry.flight
        let s := s.setFlight id { project := project, slot := slot, generation := generation }
        let projects := s.cache.projects.insert project { entry with flight := some id }
        { s with cache := { s.cache with projects := projects } }.setPc i project (.waiting id none)

/-- The entries are evicted until `bytes` more fit; `fuel` is the number of entries. -/
def CacheState.evict (bytes : Nat) : Nat → CacheState ρ → Option (CacheState ρ)
  | 0, state => some state
  | fuel + 1, state =>
    if MAX_PAYLOAD < state.bytes + bytes then
      match leastTouched (state.projects.rows.filter fun row => row.2.ready.isSome) with
      | none => some state
      | some (path, entry) => do
        let left ← usizeSub state.bytes entry.readyBytes
        evict bytes fuel { state with projects := state.projects.insert path { entry with ready := none }, bytes := left }
    else some state

/-- A ranking becomes ready; `none` is an underflow. -/
def CacheState.install (state : CacheState ρ) (project : PathBuf) (result : CachedRanking ρ) (bytes : Nat) :
    Option (CacheState ρ) :=
  match state.projects.lookup project with
  | none => some state
  | some entry => do
    let left ← usizeSub state.bytes entry.readyBytes
    let taken := { state with projects := state.projects.insert project { entry with ready := none }, bytes := left }
    let state ← taken.evict bytes taken.projects.keys.length
    match state.projects.lookup project with
    | none => return state
    | some entry =>
      let ready : Ready ρ := ⟨result.ranking, result.generation, bytes⟩
      return { state with
        projects := state.projects.insert project { entry with ready := some ready }, bytes := state.bytes + bytes }

/-- The flight of a project's entry. -/
def CacheState.flightOf (state : CacheState ρ) (project : PathBuf) : Option Nat :=
  (state.projects.lookup project).bind ProjectEntry.flight

/-- `entry.flight = None`, where the entry holds the flight. -/
def CacheState.clear (state : CacheState ρ) (project : PathBuf) (f : Nat) : CacheState ρ :=
  match state.projects.lookup project with
  | none => state
  | some entry =>
    if entry.flight = some f then { state with projects := state.projects.insert project { entry with flight := none } }
    else state

/-- The counter of retired flights when a flight ends; `none` is an underflow. -/
def Flight.unretire (flight : Flight α ρ) (retired : Nat) : Option Nat :=
  if flight.retired then usizeSub retired 1 else some retired

/-- Whether a result becomes ready: it is stable, wanted, not too large, and of the flight of the entry. -/
def CacheState.accepts (lib : Library α ρ) (state : CacheState ρ) (f : Nat) (flight : Flight α ρ)
    (ranking : CachedRanking ρ) : Bool :=
  !flight.abandoned && flight.reason.isNone && ranking.stable && state.flightOf flight.project == some f &&
    lib.rankingBytes ranking.ranking ≤ MAX_PAYLOAD

def CacheState.publish (lib : Library α ρ) (state : CacheState ρ) (f : Nat) (flight : Flight α ρ) :
    Option (CachedRanking ρ) → Option (CacheState ρ)
  | none => some state
  | some ranking =>
    if state.accepts lib f flight ranking then
      state.install flight.project ranking (lib.rankingBytes ranking.ranking)
    else some state

/-- `complete`; `none` is an underflow. -/
def Sys.complete (lib : Library α ρ) (s : Sys α ρ) (f : Nat) (flight : Flight α ρ)
    (result : Option (CachedRanking ρ)) : Option (Sys α ρ) := do
  let retired ← flight.unretire s.cache.retired
  let cache ← { s.cache with retired := retired }.publish lib f flight result
  let flight' := { flight with retired := false, result := some result, producer := .completed }
  return { s with cache := cache.clear flight.project f, flights := s.flights.insert f flight' }

/-- `WaiterGuard::drop` of call `i`, up to the release of the mutexes; `none` is an underflow. -/
def Sys.dropGuard (s : Sys α ρ) (i : Nat) (project : PathBuf) (f : Nat) (flight : Flight α ρ)
    (reply : Option (CachedRanking ρ)) : Option (Sys α ρ) := do
  let waiters ← usizeSub flight.waiters 1
  if waiters = 0 ∧ flight.result.isNone then
    let retired := if flight.retired then s.cache.retired else s.cache.retired + 1
    let cache := { s.cache with retired := retired }.clear project f
    let s := { s with cache := cache }
    return (s.setFlight f { flight with waiters := waiters, abandoned := true, retired := true }).setPc i project
      (.cancelling f reply)
  else
    return (s.setFlight f { flight with waiters := waiters }).setPc i project (.returned reply)

end Flights

section Steps

variable {α ρ : Type}

inductive Act (α : Type) where
  /-- a new call of `get` -/
  | get (i : Nat) (project : PathBuf)
  /-- a call goes on -/
  | call (i : Nat)
  /-- the future of a call is dropped, or the call fails outside its probe -/
  | drop (i : Nat)
  /-- the probe of a call fails -/
  | fault (i : Nat)
  /-- a producer goes on -/
  | produce (f : Nat)
  /-- a producer fails; a probe of it with that error -/
  | fail (f : Nat) (error : ProbeError)
  /-- the control of a flight is cancelled, or its deadline passes -/
  | stop (f : Nat) (reason : StopReason)
  /-- another connection commits to an index file -/
  | commit (file : FileIdentity) (state : α)
  /-- another file is put at the index path of a project -/
  | replace (project : PathBuf) (file : FileIdentity)
  | editConfig (project : PathBuf) (config : Option String)
  | setRecurrence (recurrence : Bool)

/-- The system after one access of a probe on a slot. -/
def Sys.probed (s : Sys α ρ) (slot : Nat) (move : ProbeMove α) : Sys α ρ :=
  { s with world := move.world, slots := Function.update s.slots slot move.observer }

def Sys.record (s : Sys α ρ) (reading : Reading) : Sys α ρ := { s with readings := s.readings ++ [reading] }

def Sys.releaseSlot (s : Sys α ρ) (slot : Nat) (probe : Probe) : Sys α ρ :=
  { s with slots := Function.update s.slots slot (probe.release (s.slots slot)) }

def orPanic {σ : Type} : Option σ → Outcome σ
  | none => .panicked
  | some s => .next s

/-- `slot`, and the call goes on with the slot. -/
def Sys.slotThen (s : Sys α ρ) (i : Nat) (project : PathBuf) (next : Nat → Pc ρ) : Outcome (Sys α ρ) :=
  match s.cache.slot s.strongCount project with
  | none => .panicked
  | some (cache, none) => .next ({ s with cache := cache }.setPc i project (.returned none))
  | some (cache, some slot) => .next ({ s with cache := cache }.setPc i project (next slot))

def Sys.stepCall (lib : Library α ρ) (s : Sys α ρ) (i : Nat) (call : Call ρ) : Outcome (Sys α ρ) :=
  let project := call.project
  match call.pc with
  | .start => s.slotThen i project .slotted
  | .slotted slot => s.slotThen i project fun probed => .probing slot probed .readConfig
  | .probing slot probed probe =>
    match probe.step lib.dataVersion s.world project (s.slots probed) with
    | none => .disabled
    | some move =>
      let s := s.probed probed move
      match move.result with
      | .running probe => .next (s.setPc i project (.probing slot probed probe))
      | .failed _ => .next (s.setPc i project (.returned none))
      | .found generation sight =>
        .next ((s.record ⟨.call i, generation, sight⟩).setPc i project (.found slot generation))
  | .detached probed probe =>
    match probe.step lib.dataVersion s.world project (s.slots probed) with
    | none => .disabled
    | some move =>
      let s := s.probed probed move
      match move.result with
      | .running probe => .next (s.setPc i project (.detached probed probe))
      | .failed _ => .next (s.setPc i project (.returned none))
      | .found _ _ => .next (s.setPc i project (.returned none))
  | .found slot generation => .next (s.enter i project slot generation)
  | .waiting f slot =>
    match (s.flights.lookup f).bind Flight.result with
    | none => .disabled
    | some reply => .next (s.setPc i project (.answered f slot reply))
  | .answered f _ reply =>
    match s.flights.lookup f with
    | none => .disabled
    | some flight => orPanic (s.dropGuard i project f flight reply)
  | .cancelling f reply =>
    match s.flights.lookup f with
    | none => .disabled
    | some flight =>
      .next ((s.setFlight f { flight with reason := flight.reason.or (some .noConsumers) }).setPc i project
        (.returned reply))
  | .returned _ => .disabled

/-- An error, or the future dropped at an await point. -/
def Sys.stepDrop (s : Sys α ρ) (i : Nat) (call : Call ρ) : Outcome (Sys α ρ) :=
  match call.pc with
  | .start => .next (s.setPc i call.project (.returned none))
  | .slotted _ => .next (s.setPc i call.project (.returned none))
  | .probing _ probed probe => .next (s.setPc i call.project (.detached probed probe))
  | .found _ _ => .next (s.setPc i call.project (.returned none))
  | .waiting f _ =>
    match s.flights.lookup f with
    | none => .disabled
    | some flight => orPanic (s.dropGuard i call.project f flight none)
  | _ => .disabled

def Sys.stepFault (s : Sys α ρ) (i : Nat) (call : Call ρ) : Outcome (Sys α ρ) :=
  match call.pc with
  | .probing _ probed probe => .next ((s.releaseSlot probed probe).setPc i call.project (.returned none))
  | .detached probed probe => .next ((s.releaseSlot probed probe).setPc i call.project (.returned none))
  | _ => .disabled

/-- The next access of a producer. -/
def Sys.stepProduce (lib : Library α ρ) (s : Sys α ρ) (f : Nat) (flight : Flight α ρ) : Outcome (Sys α ρ) :=
  let goOn (s : Sys α ρ) (producer : Producer α ρ) := Outcome.next (s.setFlight f { flight with producer := producer })
  match flight.producer with
  | .queued => goOn s (.before .readConfig)
  | .before probe =>
    match probe.step lib.dataVersion s.world flight.project (s.slots flight.slot) with
    | none => .disabled
    | some move =>
      let s := s.probed flight.slot move
      match move.result with
      | .running probe => goOn s (.before probe)
      | .failed _ => goOn s (.done none)
      | .found before sight => goOn (s.record ⟨.before f, before, sight⟩) (.openDb before)
  | .openDb before => goOn s (.snapshot before (s.world.path flight.project))
  | .snapshot before db =>
    match (s.world.files db).getLast? with
    | none => .disabled
    | some state => goOn s (.rank before db state)
  | .rank before db state => goOn s (.after before db (lib.rank state before.recurrence) .readConfig)
  | .after before db ranking probe =>
    match probe.step lib.dataVersion s.world flight.project (s.slots flight.slot) with
    | none => .disabled
    | some move =>
      let s := s.probed flight.slot move
      match move.result with
      | .running probe => goOn s (.after before db ranking probe)
      | .failed .unavailable => goOn s (.attest before db ranking none)
      | .failed .other => goOn s (.done none)
      | .found after sight => goOn (s.record ⟨.after f, after, sight⟩) (.attest before db ranking (some after))
  | .attest before db ranking after => goOn s (.check before ranking after (s.world.path flight.project == db))
  | .check before ranking after attested =>
    let stable := attested && after == some before && before == flight.generation
    goOn s (.done (some ⟨ranking, before, stable⟩))
  | .done result => orPanic (s.complete lib f flight result)
  | .completed => .disabled

def Sys.stepFail (s : Sys α ρ) (f : Nat) (flight : Flight α ρ) (error : ProbeError) : Outcome (Sys α ρ) :=
  let goOn (s : Sys α ρ) (producer : Producer α ρ) := Outcome.next (s.setFlight f { flight with producer := producer })
  match flight.producer with
  | .before probe => goOn (s.releaseSlot flight.slot probe) (.done none)
  | .after before db ranking probe =>
    let s := s.releaseSlot flight.slot probe
    match error with
    | .unavailable => goOn s (.attest before db ranking none)
    | .other => goOn s (.done none)
  | .done _ => .disabled
  | .completed => .disabled
  | _ => goOn s (.done none)

def Sys.withCall (s : Sys α ρ) (i : Nat) (k : Call ρ → Outcome (Sys α ρ)) : Outcome (Sys α ρ) :=
  match s.calls.lookup i with
  | none => .disabled
  | some call => k call

def Sys.withFlight (s : Sys α ρ) (f : Nat) (k : Flight α ρ → Outcome (Sys α ρ)) : Outcome (Sys α ρ) :=
  match s.flights.lookup f with
  | none => .disabled
  | some flight => k flight

def step (lib : Library α ρ) (s : Sys α ρ) : Act α → Outcome (Sys α ρ)
  | .get i project =>
    match s.calls.lookup i with
    | none => .next (s.setPc i project .start)
    | some _ => .disabled
  | .call i => s.withCall i (s.stepCall lib i)
  | .drop i => s.withCall i (s.stepDrop i)
  | .fault i => s.withCall i (s.stepFault i)
  | .produce f => s.withFlight f (s.stepProduce lib f)
  | .fail f error => s.withFlight f fun flight => s.stepFail f flight error
  | .stop f reason =>
    -- only the guards cancel a flight for want of consumers
    if reason = .noConsumers then .disabled
    else s.withFlight f fun flight => .next (s.setFlight f { flight with reason := flight.reason.or (some reason) })
  | .commit file state =>
    .next { s with world := { s.world with files := Function.update s.world.files file (s.world.files file ++ [state]) } }
  | .replace project file =>
    .next { s with world := { s.world with path := Function.update s.world.path project file } }
  | .editConfig project config =>
    .next { s with world := { s.world with config := Function.update s.world.config project config } }
  | .setRecurrence recurrence => .next { s with world := { s.world with recurrence := recurrence } }

/-- An empty cache in any world in which no observer was opened. -/
structure Initial (s : Sys α ρ) : Prop where
  world : s.world.epochs = []
  slots : ∀ slot, s.slots slot = some none
  projects : s.cache.projects = ∅
  bytes : s.cache.bytes = 0
  retired : s.cache.retired = 0
  flights : s.flights = ∅
  calls : s.calls = ∅
  readings : s.readings = []

def Reachable (lib : Library α ρ) (s : Sys α ρ) : Prop := ∃ s₀, Initial s₀ ∧ Lib.Steps (step lib) s₀ s

end Steps

end Overview
end Mcp
end CodeSage
