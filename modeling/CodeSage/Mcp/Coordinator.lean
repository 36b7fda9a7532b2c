import CodeSage.Lib.Steps
import CodeSage.Mcp.WorkState
import Mathlib.Tactic.Common

/-!
# CodeSage.Mcp.Coordinator

A `WorkCoordinator` shared by any number of threads (`crates/cli/src/mcp/work.rs`), as a
transition system. A step is one critical section of the `state` mutex, one access to an atomic
word, or one `notify_waiters`; every interleaving of the threads is a run.

The admission section of `acquire_execution` is split in two, since cancel callbacks change
phases without the mutex: `lock` evaluates `eligible` and keeps the mutex (`holder`), `admitting`
does the phase exchange and the rest. No other critical section can run in between.

Where a call holds a strong reference to a control for its duration (the `&WorkControl` of
`acquire_execution`, the upgraded handles of `shutdown`), it is listed in `borrows`. The rest of
the program may clone and drop its own `handles` at any time; a control is alive, and its weak
references can be upgraded, while either is left.

`notified` counts the `notify_waiters` calls. A waiter that enabled its `Notified` future when
the count was `gen` is woken by any later call, so it can go on when `gen < notified`.
-/

namespace CodeSage
namespace Mcp

open Protocol

/-- `control.cancel(reason)` in progress. A callback is the one of the `acquire_execution` call
with that number: exchange the phase, then `notify_waiters`. -/
inductive Cancel where
  | exchange (r : StopReason)
  | lock
  | callback (todo : List Nat)
  | notify (todo : List Nat)
  deriving DecidableEq, Repr

/-- `check_control(control)` in progress. -/
inductive Check where
  | deadline
  | cancel (f : Cancel)
  | load
  deriving DecidableEq, Repr

/-- What an `acquire_execution` call returns; `none` is a future that was dropped. -/
abbrev Reply := Option (Except AdmissionError Unit)

inductive Pc where
  | idle
  -- `acquire_execution`, in program order
  | acquireCheck (k : Check)
  | register
  | registerLock
  | callback
  | callbackNotify
  | enqueue
  | enable
  | loopCheck (k : Check)
  | lock
  | admitting
  | asleep
  | timeout (f : Cancel)
  | dropPending (r : Reply)
  | unregister (r : Reply)
  | finished (r : Reply)
  -- `try_request`
  | requestCheck (k : Check)
  | requestLock
  | requested (r : Except AdmissionError Unit)
  -- `cancel`
  | cancel (f : Cancel)
  | cancelled
  -- `shutdown`; `all` are the controls it collected, `rest` those it has not come to
  | shutdownLock
  | shutdownCancel (all : List Nat) (c : Nat) (f : Cancel) (rest : List Nat)
  | shutdownNext (all rest : List Nat)
  | shutdownNotify (all : List Nat)
  | shutdownDone (all : List Nat)

/-- One call of the coordinator's interface, with its arguments and local variables. `entry` is
the number of the queued entry (`pending.id`), `gen` the count at the last `enable`. -/
structure Thread where
  project : PathBuf := ""
  cls : WorkClass := .interactive
  control : Nat := 0
  registration : Nat := 0
  entry : Option Nat := none
  gen : Nat := 0
  pc : Pc := .idle

structure Control where
  inner : Inner Nat := {}
  handles : Nat := 0
  borrows : List Nat := []

def Control.alive (c : Control) : Bool := 0 < c.handles || !c.borrows.isEmpty

structure RequestLease where
  id : Nat
  project : Option PathBuf := none
  deriving DecidableEq, Repr

structure Sys where
  state : State := {}
  holder : Option Nat := none
  now : Nat := 0
  controls : Nat → Control := fun _ => {}
  created : Nat := 0
  phases : Nat → Phase := fun _ => .pending
  threads : Nat → Thread := fun _ => {}
  leases : List RequestLease := []
  executions : List Nat := []
  notified : Nat := 0

namespace Sys

def alive (s : Sys) (c : Nat) : Bool := (s.controls c).alive

/-- `State::eligible` on the current state, phases and controls. -/
def eligible (s : Sys) (l : WorkLimits) (c : WorkClass) : Option Nat :=
  s.state.eligible s.phases s.alive c (l.lane c)

def notify (s : Sys) : Sys := { s with notified := s.notified + 1 }

def setControl (s : Sys) (c : Nat) (x : Control) : Sys :=
  { s with controls := Function.update s.controls c x }

def setInner (s : Sys) (c : Nat) (i : Inner Nat) : Sys :=
  s.setControl c { s.controls c with inner := i }

def borrow (s : Sys) (c n : Nat) : Sys :=
  s.setControl c { s.controls c with borrows := n :: (s.controls c).borrows }

def release (s : Sys) (c n : Nat) : Sys :=
  s.setControl c { s.controls c with borrows := (s.controls c).borrows.erase n }

/-- The upgraded handles of `shutdown`. -/
def borrowAll (s : Sys) (n : Nat) (cs : List Nat) : Sys :=
  cs.foldl (fun s c => borrow s c n) s

/-- `phase.compare_exchange(PENDING, STOPPED)` in the cancel callback of call `n`. -/
def stopPhase (s : Sys) (n : Nat) : Sys :=
  if s.phases n = .pending then { s with phases := Function.update s.phases n .stopped } else s

def become (s : Sys) (n : Nat) (pc : Pc) : Sys :=
  { s with threads := Function.update s.threads n { s.threads n with pc := pc } }

/-- One step of `control.cancel`; `none` when it has returned. -/
def cancelStep (s : Sys) (c : Nat) : Cancel → Sys × Option Cancel
  | .exchange r =>
    match (s.controls c).inner.exchange r with
    | (i, true) => (s.setInner c i, some .lock)
    | (_, false) => (s, none)
  | .lock => (s, some (.callback (s.controls c).inner.cloneCallbacks))
  | .callback [] => (s, none)
  | .callback (n :: todo) => (s.stopPhase n, some (.notify todo))
  | .notify todo => (s.notify, some (.callback todo))

/-- One step of `check_control`: continue, or return the loaded reason. -/
def checkStep (s : Sys) (c : Nat) : Check → Sys × (Check ⊕ Option StopReason)
  | .deadline =>
    if (s.controls c).inner.expired s.now then (s, .inl (.cancel (.exchange .deadlineExceeded)))
    else (s, .inl .load)
  | .cancel f =>
    match s.cancelStep c f with
    | (s', some f') => (s', .inl (.cancel f'))
    | (s', none) => (s', .inl .load)
  | .load => (s, .inr (s.controls c).inner.stopped)

/-- Take the mutex, unless an admission section holds it. -/
def locked (s : Sys) (k : Lib.Outcome Sys) : Lib.Outcome Sys :=
  if s.holder = none then k else .disabled

def panicOr (o : Option State) (k : State → Sys) : Lib.Outcome Sys :=
  match o with
  | none => .panicked
  | some st => .next (k st)

/-- The next step of the call made by thread `n`. -/
def go (l : WorkLimits) (s : Sys) (n : Nat) : Lib.Outcome Sys :=
  let t := s.threads n
  match t.pc with
  | .idle => .disabled
  | .acquireCheck k =>
    match s.checkStep t.control k with
    | (s', .inl k') => .next (s'.become n (.acquireCheck k'))
    | (s', .inr (some r)) =>
      .next ((s'.release t.control n).become n (.finished (some (.error (.stopped r)))))
    | (s', .inr none) => .next (s'.become n .register)
  | .register =>
    let (id, i) := (s.controls t.control).inner.takeId
    .next { s.setInner t.control i with
      threads := Function.update s.threads n { t with registration := id, pc := .registerLock } }
  | .registerLock =>
    match (s.controls t.control).inner.register t.registration n with
    | (i, false) => .next ((s.setInner t.control i).become n .enqueue)
    | (_, true) => .next (s.become n .callback)
  | .callback => .next ((s.stopPhase n).become n .callbackNotify)
  | .callbackNotify => .next (s.notify.become n .enqueue)
  | .enqueue => s.locked <|
    match s.state.enqueue l t.project t.cls t.control n with
    | .error e => .next (s.become n (.unregister (some (.error e))))
    | .ok (id, st) => .next { s with
        state := st
        threads := Function.update s.threads n { t with entry := some id, pc := .enable } }
  | .enable =>
    .next { s with
      threads := Function.update s.threads n { t with gen := s.notified, pc := .loopCheck .deadline } }
  | .loopCheck k =>
    match s.checkStep t.control k with
    | (s', .inl k') => .next (s'.become n (.loopCheck k'))
    | (s', .inr (some r)) => .next (s'.become n (.dropPending (some (.error (.stopped r)))))
    | (s', .inr none) => .next (s'.become n .lock)
  | .lock => s.locked <|
    if s.state.closed then .next (s.become n (.dropPending (some (.error .shutdown))))
    else if s.eligible l t.cls = t.entry then
      .next ({ s with holder := some n }.become n .admitting)
    else .next (s.become n .asleep)
  | .admitting =>
    if s.phases n = .pending then
      panicOr (s.state.admitEntry t.cls (t.entry.getD 0)) fun st =>
        ({ s with state := st, holder := none,
                  phases := Function.update s.phases n .admitted }.notify).become n
          (.dropPending (some (.ok ())))
    else .next ({ s with holder := none }.become n .enable)
  | .asleep => if t.gen < s.notified then .next (s.become n .enable) else .disabled
  | .timeout f =>
    match s.cancelStep t.control f with
    | (s', some f') => .next (s'.become n (.timeout f'))
    | (s', none) => .next (s'.become n .enable)
  | .dropPending r => s.locked <|
    panicOr (s.state.dropPending (t.entry.getD 0)) fun st =>
      ({ s with state := st }.notify).become n (.unregister r)
  | .unregister r =>
    let s' := (s.setInner t.control ((s.controls t.control).inner.unregister t.registration)).release
      t.control n
    .next ({ s' with
      executions := match r with
        | some (.ok ()) => t.entry.getD 0 :: s.executions
        | _ => s.executions }.become n (.finished r))
  | .finished _ => .disabled
  | .requestCheck k =>
    match s.checkStep t.control k with
    | (s', .inl k') => .next (s'.become n (.requestCheck k'))
    | (s', .inr (some r)) =>
      .next ((s'.release t.control n).become n (.requested (.error (.stopped r))))
    | (s', .inr none) => .next (s'.become n .requestLock)
  | .requestLock => s.locked <|
    match s.state.tryRequest l t.control with
    | .error e => .next ((s.release t.control n).become n (.requested (.error e)))
    | .ok (id, st) =>
      .next (({ s with state := st, leases := { id } :: s.leases }.release t.control n).become n
        (.requested (.ok ())))
  | .requested _ => .disabled
  | .cancel f =>
    match s.cancelStep t.control f with
    | (s', some f') => .next (s'.become n (.cancel f'))
    | (s', none) => .next ((s'.release t.control n).become n .cancelled)
  | .cancelled => .disabled
  | .shutdownLock => s.locked <|
    let (st, all) := s.state.shutdown s.alive
    .next (({ s with state := st }.borrowAll n all).become n (.shutdownNext all all))
  | .shutdownNext all [] => .next (s.become n (.shutdownNotify all))
  | .shutdownNext all (c :: rest) =>
    .next (s.become n (.shutdownCancel all c (.exchange .shutdown) rest))
  | .shutdownCancel all c f rest =>
    match s.cancelStep c f with
    | (s', some f') => .next (s'.become n (.shutdownCancel all c f' rest))
    | (s', none) => .next ((s'.release c n).become n (.shutdownNext all rest))
  | .shutdownNotify all => .next (s.notify.become n (.shutdownDone all))
  | .shutdownDone _ => .disabled

end Sys

inductive Act where
  | tick
  | newControl (deadline : Option Nat)
  | cloneControl (c : Nat)
  | dropControl (c : Nat)
  /-- Thread `n` starts a call, on a control it has a handle of. -/
  | acquire (n : Nat) (project : PathBuf) (cls : WorkClass) (c : Nat)
  | tryRequest (n c : Nat)
  | cancel (n c : Nat) (r : StopReason)
  | shutdown (n : Nat)
  /-- Thread `n` takes the next step of its call. -/
  | go (n : Nat)
  /-- The deadline branch of the `select!` of thread `n` fires. -/
  | timeout (n : Nat)
  /-- The future of thread `n` is dropped while it waits. -/
  | abandon (n : Nat)
  | attachProject (id : Nat) (project : PathBuf)
  | dropRequest (id : Nat)
  | dropExecution (id : Nat)

/-- Thread `n`, idle so far, starts a call that borrows control `c`. -/
def Sys.start (s : Sys) (n c : Nat) (t : Thread) : Lib.Outcome Sys :=
  match (s.threads n).pc with
  | .idle =>
    if 0 < (s.controls c).handles then
      .next { s.borrow c n with threads := Function.update s.threads n t }
    else .disabled
  | _ => .disabled

def step (l : WorkLimits) (s : Sys) : Act → Lib.Outcome Sys
  | .tick => .next { s with now := s.now + 1 }
  | .newControl deadline =>
    .next { s with
      controls := Function.update s.controls s.created { inner := { deadline }, handles := 1 }
      created := s.created + 1 }
  | .cloneControl c =>
    if 0 < (s.controls c).handles then
      .next (s.setControl c { s.controls c with handles := (s.controls c).handles + 1 })
    else .disabled
  | .dropControl c =>
    if 0 < (s.controls c).handles then
      .next (s.setControl c { s.controls c with handles := (s.controls c).handles - 1 })
    else .disabled
  | .acquire n project cls c =>
    s.start n c { project, cls, control := c, pc := .acquireCheck .deadline }
  | .tryRequest n c => s.start n c { control := c, pc := .requestCheck .deadline }
  | .cancel n c r => s.start n c { control := c, pc := .cancel (.exchange r) }
  | .shutdown n =>
    match (s.threads n).pc with
    | .idle => .next (s.become n .shutdownLock)
    | _ => .disabled
  | .go n => s.go l n
  | .timeout n =>
    match (s.threads n).pc with
    | .asleep =>
      if (s.controls (s.threads n).control).inner.expired s.now then
        .next (s.become n (.timeout (.exchange .deadlineExceeded)))
      else .disabled
    | _ => .disabled
  | .abandon n =>
    match (s.threads n).pc with
    | .asleep => .next (s.become n (.dropPending none))
    | _ => .disabled
  | .attachProject id project =>
    match s.leases.find? fun r => r.id = id with
    | none => .disabled
    | some { project := some _, .. } => .next s
    | some { project := none, .. } => s.locked <|
      match s.state.attachProject l project with
      | .error _ => .next s
      | .ok st => .next { s with
          state := st
          leases := s.leases.map fun r => if r.id = id then { r with project := some project } else r }
  | .dropRequest id =>
    match s.leases.find? fun r => r.id = id with
    | some r => s.locked <|
      Sys.panicOr (s.state.dropRequest r.id r.project) fun st =>
        { s with state := st, leases := s.leases.eraseP fun r => r.id = id }
    | none => .disabled
  | .dropExecution id =>
    if id ∈ s.executions then s.locked <|
      Sys.panicOr (s.state.dropExecution id) fun st =>
        { s with state := st, executions := s.executions.erase id }.notify
    else .disabled

def Reachable (l : WorkLimits) (s : Sys) : Prop := Lib.Steps (step l) {} s

end Mcp
end CodeSage
