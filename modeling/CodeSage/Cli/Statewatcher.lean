import CodeSage.Lib.Table
import CodeSage.Lib.Obligation
import CodeSage.Parser.Detect

/-!
# CodeSage.Cli.Statewatcher

The loop of the file watcher (`crates/cli/src/statewatcher.rs`). One iteration is a function of the loop's
variables and of an `Input`: the event received, what the file system and the passes answer, and the clock,
which is read once per section of the loop. Its result is the new variables and the `Effect`s, in order.
Paths are relative to the project root, and times are milliseconds.

`header_is_cpp` only picks the dialect of a per-file pass, whose outcome is an input, and is left out with the
status file and the registration of watches.
-/

namespace CodeSage
namespace Cli

open Lib

abbrev Path := String

abbrev Instant := Nat

def BACKPRESSURE_MAX_DEFER : Nat := 15 * 60 * 1000

def BATCH_THRESHOLD : Nat := 10

def BATCH_WINDOW : Nat := 3000

def PENDING_PATH_LIMIT : Nat := 4096

def PENDING_PATH_BYTES : Nat := 4 * 1024 * 1024

def BULK_COOLDOWN : Nat := 3000

def MAX_REMOVAL_FAILURES : Nat := 10

def MAX_WORK_RETRIES : Nat := 5

def PARKED_RETRY_INTERVAL : Nat := 30 * 60 * 1000

def MAX_WORK_RETRY_EXTRA : Nat := 600 * 1000

def U32_MAX : Nat := 2 ^ 32 - 1

/-- `work_retry_extra_delay` -/
def workRetryExtraDelay (attempt debounce : Nat) : Nat :=
  min (debounce * (min (2 ^ (attempt - 1)) U32_MAX - 1)) MAX_WORK_RETRY_EXTRA

/-- `WorkOutcome` -/
inductive WorkOutcome where
  | done
  | skipped
  | failed
  deriving DecidableEq, Repr

/-- The kinds that admission lets through; `modify true` is `Modify(ModifyKind::Name(_))`. -/
inductive EventKind where
  | create
  | modify (name : Bool)
  | remove
  deriving DecidableEq, Repr

/-- `FilterRefresh` -/
structure FilterRefresh where
  reload : Bool
  reconciling : Bool
  failures : Nat
  retryAt : Option Instant
  deriving DecidableEq, Repr

namespace FilterRefresh

def default : FilterRefresh := ⟨false, false, 0, none⟩

def request (r : FilterRefresh) (now : Instant) : FilterRefresh :=
  { r with
    reload := true
    retryAt := if r.failures = 0 then some (max (r.retryAt.getD now) now) else r.retryAt }

def pending (r : FilterRefresh) : Bool := r.reload || r.reconciling

def parked (r : FilterRefresh) : Bool := r.failures > MAX_WORK_RETRIES

def due (r : FilterRefresh) (now : Instant) : Bool := r.pending && r.retryAt.all fun at_ => at_ ≤ now

def failed (r : FilterRefresh) (now : Instant) (debounce : Nat) : FilterRefresh :=
  let r := { r with failures := min (r.failures + 1) U32_MAX }
  let base := max debounce 1000
  let delay := if r.parked then PARKED_RETRY_INTERVAL else base + workRetryExtraDelay r.failures base
  { r with retryAt := some (now + delay) }

end FilterRefresh

/-- `is_ignored`, for a directory when the flag is set -/
abbrev WatchFilter := Path → Bool → Bool

structure Config where
  debounce : Nat
  idleTimeout : Nat
  backpressure : Bool

structure State where
  pending : Table Path Instant
  removedPaths : List Path
  removedPrefixes : List Path
  batchEventTimes : List Instant
  currentlyIndexing : List Path
  recheckQueue : List Path
  workRetries : Table Path Nat
  parked : Table Path Instant
  bulkRetryAt : Option Instant
  startupFailures : Option Nat
  bulkCooldownUntil : Option Instant
  removalRetryAt : Option Instant
  removalFailCount : Nat
  lastActivity : Instant
  deferredSince : Option Instant
  refresh : FilterRefresh
  /-- `admission.lost` -/
  lost : Bool
  filter : WatchFilter

/-- The variables before the loop. -/
def State.start (filter : WatchFilter) (now : Instant) : State where
  pending := ∅
  removedPaths := []
  removedPrefixes := []
  batchEventTimes := []
  currentlyIndexing := []
  recheckQueue := []
  workRetries := ∅
  parked := ∅
  bulkRetryAt := some now
  startupFailures := some 0
  bulkCooldownUntil := none
  removalRetryAt := none
  removalFailCount := 0
  lastActivity := now
  deferredSince := none
  refresh := .default
  lost := false
  filter := filter

/-- What an iteration does, as far as the outside can tell. -/
inductive Effect where
  /-- a `Create` or `Modify` event of a source file, or a file found in an adopted directory -/
  | changed (path : Path)
  /-- a `Remove` event of a source file -/
  | removed (path : Path)
  | removedPrefix (path : Path)
  /-- an event of a `.h` file or a C++ source has scheduled a bulk pass -/
  | headerChanged (path : Path)
  /-- the per-file pass is complete, structurally and semantically -/
  | indexed (path : Path)
  | ignored (path : Path)
  /-- a bulk pass, inside a reconciliation of the filter or not, after `startup_outcome` -/
  | bulk (reconciling : Bool) (outcome : WorkOutcome)
  | removal (outcome : WorkOutcome)
  /-- `giving up on index removals` -/
  | gaveUp
  deriving DecidableEq, Repr

section Budget

/-- The loop of `pending_work_exceeds_budget`. -/
def exceedsFrom : Nat → Nat → List Nat → Bool
  | _, _, [] => false
  | index, bytes, length :: lengths =>
    index ≥ PENDING_PATH_LIMIT || bytes + length > PENDING_PATH_BYTES || exceedsFrom (index + 1) (bytes + length) lengths

/-- `pending_work_exceeds_budget` -/
def pendingWorkExceedsBudget (lengths : List Nat) : Bool := exceedsFrom 0 0 lengths

def State.lengths (s : State) : List Nat :=
  (s.pending.keys ++ s.currentlyIndexing ++ s.recheckQueue ++ s.workRetries.keys ++ s.parked.keys ++
    s.removedPaths ++ s.removedPrefixes).map String.utf8ByteSize

/-- Over budget, everything is dropped for a full reconciliation. -/
def State.shed (s : State) : State :=
  if pendingWorkExceedsBudget s.lengths then
    { s with
      pending := ∅
      removedPaths := []
      removedPrefixes := []
      recheckQueue := []
      workRetries := ∅
      parked := ∅
      batchEventTimes := []
      lost := true }
  else s

/-- `admission.lost.swap(false)` -/
def State.takeLost (s : State) (now : Instant) : State :=
  if s.lost then
    let refresh := s.refresh.request now
    { s with
      lost := false
      refresh := { refresh with retryAt := some (max (refresh.retryAt.getD now) (s.bulkCooldownUntil.getD now)) } }
  else s

end Budget

section Bulk

/-- `apply_bulk_outcome`: the pending and removed paths, and the time of the retry -/
def applyBulkOutcome (outcome : WorkOutcome) (s : State) (now : Instant) (debounce : Nat)
    (cooldownUntil : Option Instant) : State :=
  match outcome with
  | .done => { s with pending := ∅, removedPaths := [], bulkRetryAt := none }
  | .skipped =>
    let retryAt := cooldownUntil.elim (now + debounce) fun cd => max (now + debounce) cd
    -- every stamp becomes the one that is ready at the retry
    { s with
      pending := s.pending.keys.foldl (fun pending path => pending.put path fun _ => retryAt - debounce) s.pending
      bulkRetryAt := some retryAt }
  | .failed => { s with bulkRetryAt := none }

/-- `startup_outcome` -/
def startupOutcome (outcome : WorkOutcome) (failures : Option Nat) : WorkOutcome × Option Nat :=
  match failures with
  | none => (outcome, none)
  | some count =>
    match outcome with
    | .done => (.done, none)
    | .failed => if count + 1 < 3 then (.skipped, some (count + 1)) else (.failed, none)
    | .skipped => (.skipped, some count)

/-- `bulk_cooldown_after` -/
def bulkCooldownAfter (outcome : WorkOutcome) (now : Instant) : Option Instant :=
  if outcome = .done then some (now + BULK_COOLDOWN) else none

/-- `in_bulk_cooldown` -/
def inBulkCooldown (cooldownUntil : Option Instant) (now : Instant) : Bool := cooldownUntil.any fun until_ => now < until_

/-- `should_defer`; `reason` says whether there is one -/
def shouldDefer (reason : Bool) (deferredSince : Option Instant) (now : Instant) : Bool × Option Instant :=
  if !reason then (false, none)
  else
    let since := deferredSince.getD now
    if now - since ≥ BACKPRESSURE_MAX_DEFER then (false, none) else (true, some since)

/-- What a bulk pass meets. -/
structure BulkFacts where
  reason : Bool
  /-- `run_bulk_incremental` -/
  outcome : WorkOutcome
  now : Instant

/-- `run_bulk_guarded` -/
def runBulkGuarded (config : Config) (s : State) (facts : BulkFacts) : State × WorkOutcome :=
  let defer := if config.backpressure then shouldDefer facts.reason s.deferredSince facts.now else (false, s.deferredSince)
  let s := { s with deferredSince := defer.2 }
  if defer.1 then (s, .skipped)
  else if facts.outcome = .done then ({ s with workRetries := ∅, parked := ∅ }, .done)
  else (s, facts.outcome)

/-- The end of either bulk section. -/
def finishBulk (config : Config) (s : State) (outcome : WorkOutcome) (now : Instant) : State :=
  let s := { s with bulkCooldownUntil := bulkCooldownAfter outcome now }
  let s := if outcome = .done then { s with removedPrefixes := [] } else s
  applyBulkOutcome outcome s now config.debounce s.bulkCooldownUntil

/-- A bulk pass outside a reconciliation of the filter. -/
def bulkPass (config : Config) (s : State) (facts : BulkFacts) : State × List Effect :=
  let ran := runBulkGuarded config s facts
  let outcome := startupOutcome ran.2 ran.1.startupFailures
  (finishBulk config { ran.1 with startupFailures := outcome.2 } outcome.1 facts.now, [.bulk false outcome.1])

/-- The refresh after the bulk pass of a reconciliation. -/
def FilterRefresh.after (r : FilterRefresh) (outcome : WorkOutcome) (now : Instant) (debounce : Nat) : FilterRefresh :=
  match outcome with
  | .done => .default
  | .skipped => { r with retryAt := some (now + debounce) }
  | .failed => r.failed now debounce

/-- A bulk pass of a reconciliation of the filter. -/
def reconcilePass (config : Config) (s : State) (facts : BulkFacts) : State × List Effect :=
  let ran := runBulkGuarded config s facts
  let s := { ran.1 with refresh := ran.1.refresh.after ran.2 facts.now config.debounce }
  (finishBulk config s ran.2 facts.now, [.bulk true ran.2])

end Bulk

section Events

/-- `DirScan` -/
inductive DirScan where
  | files (paths : List Path)
  | overThreshold

/-- What the file system says of one path of an event. -/
structure PathFacts where
  /-- `none` outside the project root -/
  rel : Option Path
  isDir : Bool
  exists_ : Bool
  /-- the walk of `scan_dir_source_files` -/
  walk : DirScan
  now : Instant

/-- `is_dir_adoption_kind` -/
def isDirAdoptionKind : EventKind → Bool
  | .create => true
  | .modify name => name
  | .remove => false

/-- `header_context_changed` -/
def headerContextChanged (path : Path) : Bool := Parser.extension path == some "h" || Parser.isCppEvidence path

/-- `is_source_file` -/
def isSourceFile (path : Path) : Bool := (Parser.detectLanguage path).isSome

/-- The time of a bulk pass that an event asks for. -/
def bulkAfter (config : Config) (s : State) (now : Instant) : Instant :=
  s.bulkCooldownUntil.elim (now + config.debounce) fun until_ => max until_ (now + config.debounce)

def State.recordEventTime (s : State) (now : Instant) : State :=
  if s.batchEventTimes.length < BATCH_THRESHOLD then { s with batchEventTimes := s.batchEventTimes ++ [now] } else s

/-- One file of an adopted directory. -/
def adoptFile (now : Instant) (s : State) (rel : Path) : State :=
  let s := { s with removedPaths := s.removedPaths.filter (· ≠ rel) }
  if (s.pending.lookup rel).isSome then s
  else State.recordEventTime { s with pending := s.pending.insert rel now } now

/-- A directory that appeared. -/
def adoptDir (config : Config) (s : State) (rel : Path) (facts : PathFacts) : State × List Effect :=
  if s.filter rel true then (s, [])
  else
    let s := { s with refresh := s.refresh.request facts.now, bulkRetryAt := some facts.now }
    match facts.walk with
    | .files paths => (paths.foldl (adoptFile facts.now) s, paths.map .changed)
    -- `schedule_watch_error_catchup`
    | .overThreshold => (applyBulkOutcome .skipped s facts.now config.debounce s.bulkCooldownUntil, [])

def isRemovalKind : EventKind → Bool
  | .create => false
  | .modify name => name
  | .remove => true

/-- A path that vanished may have been a directory. -/
def queuePrefix (config : Config) (kind : EventKind) (s : State) (rel : Path) (facts : PathFacts) : State × List Effect :=
  if isRemovalKind kind && rel ≠ "" && !facts.exists_ && !s.filter rel true then
    ({ s with
        removedPrefixes := if rel ∈ s.removedPrefixes then s.removedPrefixes else s.removedPrefixes ++ [rel]
        bulkRetryAt := some (bulkAfter config s facts.now) }, [.removedPrefix rel])
  else (s, [])

def noteHeader (config : Config) (s : State) (rel : Path) (now : Instant) : State × List Effect :=
  if headerContextChanged rel then ({ s with bulkRetryAt := some (bulkAfter config s now) }, [.headerChanged rel])
  else (s, [])

def queueSource (kind : EventKind) (s : State) (rel : Path) (now : Instant) : State × List Effect :=
  match kind with
  | .remove => ({ s with removedPaths := s.removedPaths ++ [rel] }, [.removed rel])
  | _ =>
    (State.recordEventTime
      { s with removedPaths := s.removedPaths.filter (· ≠ rel), pending := s.pending.insert rel now } now,
      [.changed rel])

/-- The body of the loop over the paths of an event. -/
def handlePath (config : Config) (kind : EventKind) (s : State) (facts : PathFacts) : State × List Effect :=
  match facts.rel with
  | none => (s, [])
  | some rel =>
    if Parser.fileName rel = ".gitignore".toList then
      ({ s with refresh := s.refresh.request facts.now, bulkRetryAt := some facts.now }, [])
    else if facts.isDir && isDirAdoptionKind kind then adoptDir config s rel facts
    else
      let gone := queuePrefix config kind s rel facts
      if !isSourceFile rel || gone.1.filter rel false then gone
      else
        let noted := noteHeader config gone.1 rel facts.now
        let queued := queueSource kind noted.1 rel facts.now
        (queued.1, gone.2 ++ noted.2 ++ queued.2)

def handlePaths (config : Config) (kind : EventKind) (s : State) (paths : List PathFacts) : State × List Effect :=
  collect (handlePath config kind) s paths

end Events

section Drain

/-- What a per-file pass answers. -/
structure FileWork where
  /-- `reindex_one` -/
  outcome : WorkOutcome
  stale : Bool
  /-- `recheck_needs_reindex` -/
  needsReindex : Bool

/-- The loop of `requeue_failed_work`: the queues, and the exhausted paths. -/
def requeueFailedWork (debounce : Nat) (now : Instant) : State → List Path → State × List Path
  | s, [] => (s, [])
  | s, path :: paths =>
    let attempt := (s.workRetries.lookup path).getD 0 + 1
    if attempt > MAX_WORK_RETRIES then
      let rest := requeueFailedWork debounce now
        { s with workRetries := s.workRetries.erase path, pending := s.pending.erase path } paths
      (rest.1, path :: rest.2)
    else
      requeueFailedWork debounce now
        { s with
          workRetries := s.workRetries.insert path attempt
          pending := s.pending.insert path (now + workRetryExtraDelay attempt debounce) } paths

/-- Failed paths are requeued, or parked when their retries are spent. -/
def retryOrPark (debounce : Nat) (now : Instant) (s : State) (paths : List Path) : State :=
  let requeued := requeueFailedWork debounce now s paths
  { requeued.1 with parked := requeued.2.foldl (fun parked path => parked.insert path now) requeued.1.parked }

def State.forget (s : State) (path : Path) : State :=
  { s with workRetries := s.workRetries.erase path, parked := s.parked.erase path }

/-- One path of the loop of `process_ready`, with the paths whose semantic rows are stale. The path is in
`currently_indexing` only while `reindex_one` runs. -/
def processOne (config : Config) (work : Path → FileWork) (now : Instant) (r : State × List Path) (path : Path) :
    (State × List Path) × List Effect :=
  let s := { r.1 with pending := r.1.pending.erase path }
  if s.filter path false then ((s.forget path, r.2), [.ignored path])
  else if path ∈ s.currentlyIndexing then
    (({ s with recheckQueue := if path ∈ s.recheckQueue then s.recheckQueue else path :: s.recheckQueue }, r.2), [])
  else
    match (work path).outcome with
    | .failed => ((retryOrPark config.debounce now s [path], r.2), [])
    | .skipped => (({ s with pending := s.pending.insert path now }, r.2), [])
    | .done =>
      let queued := path ∈ s.recheckQueue
      let recheck (s : State) : State :=
        let s := { s with recheckQueue := s.recheckQueue.filter (· ≠ path) }
        if queued ∧ (work path).needsReindex then { s with pending := s.pending.insert path now } else s
      if (work path).stale then ((recheck s, r.2 ++ [path]), [])
      else ((recheck (s.forget path), r.2), [.indexed path])

/-- The first loop of `apply_semantic_outcome`: the failed paths are collected. -/
def settleSemantic (outcome : Except WorkOutcome (List Path)) (now : Instant) (r : State × List Path) (path : Path) :
    (State × List Path) × List Effect :=
  match outcome with
  | .ok failedPaths =>
    if path ∉ failedPaths then ((r.1.forget path, r.2), [.indexed path]) else ((r.1, r.2 ++ [path]), [])
  | .error .skipped => (({ r.1 with pending := r.1.pending.insert path now }, r.2), [])
  | .error _ => ((r.1, r.2 ++ [path]), [])

/-- `apply_semantic_outcome` -/
def applySemanticOutcome (outcome : Except WorkOutcome (List Path)) (paths : List Path) (debounce : Nat)
    (now : Instant) (s : State) : State × List Effect :=
  let settled := collect (settleSemantic outcome now) (s, []) paths
  (retryOrPark debounce now settled.1.1 settled.1.2, settled.2)

/-- What the per-file passes meet. -/
structure DrainFacts where
  reason : Bool
  work : Path → FileWork
  /-- `semantic_reindex_batch` -/
  semantic : Except WorkOutcome (List Path)
  now : Instant

/-- `process_ready` -/
def processReady (config : Config) (facts : DrainFacts) (s : State) (ready : List Path) : State × List Effect :=
  let structural := collect (processOne config facts.work facts.now) (s, []) ready
  if structural.1.2.isEmpty then (structural.1.1, structural.2)
  else
    let semantic := applySemanticOutcome facts.semantic structural.1.2 config.debounce facts.now structural.1.1
    (semantic.1, structural.2 ++ semantic.2)

/-- `compute_ready` -/
def computeReady (pending : Table Path Instant) (now : Instant) (debounce : Nat) : List Path :=
  (pending.rows.filter fun row => now - row.2 ≥ debounce).map Prod.fst

/-- `drain_pending` -/
def drainPending (config : Config) (facts : DrainFacts) (s : State) : State × List Effect :=
  let ready := computeReady s.pending facts.now config.debounce
  if ready.isEmpty then (s, [])
  else
    let defer :=
      if config.backpressure then shouldDefer facts.reason s.deferredSince facts.now else (false, s.deferredSince)
    let s := { s with deferredSince := defer.2 }
    if defer.1 then
      ({ s with pending := ready.foldl (fun pending path => pending.insert path facts.now) s.pending }, [])
    else processReady config facts s ready

/-- `revive_due_parked` -/
def reviveDueParked (s : State) (now : Instant) : State :=
  let due := (s.parked.rows.filter fun row => now - row.2 ≥ PARKED_RETRY_INTERVAL).map Prod.fst
  { s with
    parked := s.parked.deleteWhere fun path => path ∈ due
    workRetries := s.workRetries.deleteWhere fun path => path ∈ due
    pending := due.foldl (fun pending path => pending.insert path now) s.pending }

end Drain

section Removals

/-- `apply_removal_outcome` -/
def applyRemovalOutcome (outcome : WorkOutcome) (s : State) (now : Instant) (debounce : Nat) : State × List Effect :=
  match outcome with
  | .done => ({ s with removedPaths := [], removedPrefixes := [], removalFailCount := 0, removalRetryAt := none }, [])
  | .skipped => ({ s with removalRetryAt := some (now + debounce) }, [])
  | .failed =>
    if s.removalFailCount + 1 ≥ MAX_REMOVAL_FAILURES then
      ({ s with removedPaths := [], removedPrefixes := [], removalFailCount := 0, removalRetryAt := none }, [.gaveUp])
    else ({ s with removalFailCount := s.removalFailCount + 1, removalRetryAt := some (now + debounce) }, [])

/-- The removal section of the loop; `outcome` is what `handle_removals` answers. -/
def removeQueued (config : Config) (s : State) (outcome : WorkOutcome) (now : Instant) : State × List Effect :=
  if s.removedPaths.isEmpty && s.removedPrefixes.isEmpty then
    ({ s with removalRetryAt := none, removalFailCount := 0 }, [])
  else if s.removalRetryAt.all fun at_ => at_ ≤ now then
    let applied := applyRemovalOutcome outcome s now config.debounce
    (applied.1, .removal outcome :: applied.2)
  else (s, [])

end Removals

section Loop

inductive Received where
  | event (kind : EventKind) (paths : List PathFacts)
  | timeout
  | disconnected

structure Input where
  /-- notifications lost before the section that takes the flag, and before the idle test -/
  lostEarly : Bool
  lostLate : Bool
  nowLost : Instant
  received : Received
  nowBatch : Instant
  burst : BulkFacts
  shutdown : Bool
  disabled : Bool
  nowReload : Instant
  /-- the new filter, when the watch registrations could be replaced -/
  replacement : Option WatchFilter
  bulk : BulkFacts
  removal : WorkOutcome
  nowRemoval : Instant
  drain : DrainFacts
  nowIdle : Instant

inductive Exit where
  | channelClosed
  | shutdown
  | disabled
  | idle
  deriving DecidableEq, Repr

structure Iteration where
  state : State
  effects : List Effect
  exit : Option Exit

/-- The section that replaces the filter. -/
def reloadFilter (config : Config) (s : State) (now : Instant) (replacement : Option WatchFilter) : State :=
  if s.refresh.reload && s.refresh.due now then
    match replacement with
    | some filter => { s with filter := filter, refresh := { s.refresh with reload := false, reconciling := true } }
    | none => { s with refresh := s.refresh.failed now config.debounce }
  else s

/-- The section that retries bulk work. -/
def retryBulk (config : Config) (s : State) (facts : BulkFacts) : State × List Effect :=
  if s.refresh.reload then (s, [])
  else if s.refresh.reconciling then
    if s.refresh.due facts.now then reconcilePass config s facts else (s, [])
  else if s.bulkRetryAt.any fun at_ => at_ ≤ facts.now then bulkPass config s facts
  else (s, [])

/-- `is_idle` -/
def isIdle (lastActivity : Instant) (idleTimeout now : Nat) : Bool := idleTimeout ≠ 0 && now - lastActivity ≥ idleTimeout

/-- What keeps the watcher alive. -/
def State.busy (s : State) : Bool :=
  !s.pending.keys.isEmpty || !s.currentlyIndexing.isEmpty || !s.recheckQueue.isEmpty || !s.removedPaths.isEmpty ||
    !s.removedPrefixes.isEmpty || !s.parked.keys.isEmpty || s.bulkRetryAt.isSome || s.refresh.pending || s.lost

/-- The sections after the event; `effects` are those of the event. -/
def afterEvent (config : Config) (s : State) (effects : List Effect) (i : Input) : Iteration :=
  if i.shutdown then
    -- the outcome of a last removal pass is not looked at
    let drained := processReady config i.drain s s.pending.keys
    ⟨drained.1, effects ++ drained.2, some .shutdown⟩
  else if i.disabled then ⟨s, effects, some .disabled⟩
  else
    let s := reloadFilter config s i.nowReload i.replacement
    let bulk := retryBulk config s i.bulk
    if bulk.1.refresh.reconciling then ⟨{ bulk.1 with lastActivity := i.nowIdle }, effects ++ bulk.2, none⟩
    else
      let removed := removeQueued config bulk.1 i.removal i.nowRemoval
      let drained := drainPending config i.drain removed.1
      let s := reviveDueParked drained.1 i.nowIdle
      let s := { s with lost := s.lost || i.lostLate }
      let effects := effects ++ bulk.2 ++ removed.2 ++ drained.2
      if s.busy then ⟨{ s with lastActivity := i.nowIdle }, effects, none⟩
      else if isIdle s.lastActivity config.idleTimeout i.nowIdle then ⟨s, effects, some .idle⟩
      else ⟨s, effects, none⟩

/-- One iteration of the loop of `run_statewatcher_with_admission`. -/
def iterate (config : Config) (s : State) (i : Input) : Iteration :=
  let s := (State.shed { s with lost := s.lost || i.lostEarly }).takeLost i.nowLost
  match i.received with
  | .disconnected => ⟨s, [], some .channelClosed⟩
  | .timeout => afterEvent config s [] i
  | .event kind paths =>
    let handled := handlePaths config kind s paths
    let s := { handled.1 with batchEventTimes := handled.1.batchEventTimes.filter fun t => i.nowBatch - t < BATCH_WINDOW }
    if !s.refresh.pending && s.batchEventTimes.length ≥ BATCH_THRESHOLD then
      let s := { s with batchEventTimes := [] }
      if inBulkCooldown s.bulkCooldownUntil i.nowBatch then
        ⟨applyBulkOutcome .skipped s i.nowBatch config.debounce s.bulkCooldownUntil, handled.2, none⟩
      else
        let burst := bulkPass config s i.burst
        ⟨burst.1, handled.2 ++ burst.2, none⟩
    else afterEvent config s handled.2 i

/-- The loop, until it exits or the inputs end. -/
def runStatewatcher (config : Config) : State → List Input → Iteration
  | s, [] => ⟨s, [], none⟩
  | s, i :: inputs =>
    let once := iterate config s i
    match once.exit with
    | some _ => once
    | none =>
      let rest := runStatewatcher config once.state inputs
      { rest with effects := once.effects ++ rest.effects }

end Loop

end Cli
end CodeSage
