import Mathlib.Algebra.Order.Ring.Int
import CodeSage.Protocol.Control
import Mathlib.Data.List.AList

/-!
# CodeSage.Mcp.WorkState

The data behind a `WorkCoordinator` (`crates/cli/src/mcp/work.rs`) and its critical sections:
each function below is what the source does while it holds the `state` mutex, with `none` where
it would panic (an `expect` on `None`, or `-= 1` on 0).

An entry of the queue points at two cells outside the mutex: the `phase` word of its
`acquire_execution` call and the control it was made with, held weakly. `eligible` reads both, so
it takes the current phases and the liveness of the controls as arguments. Its loads are separate
atomic reads in the source; phases and controls never become eligible again, so the result is the
one of a single evaluation at the time of its last load.

Arrays indexed by `class.index()` are functions of the class, and paths are only compared.
-/

namespace CodeSage
namespace Mcp

open Protocol

abbrev PathBuf := String

inductive WorkClass where
  | interactive
  | analysis
  | native
  deriving DecidableEq, Repr

structure LaneLimits where
  running : Nat
  runningPerProject : Nat
  queued : Nat
  queuedPerProject : Nat
  deriving DecidableEq, Repr

structure WorkLimits where
  requests : Nat
  requestsPerProject : Nat
  interactive : LaneLimits
  analysis : LaneLimits
  native : LaneLimits
  deriving DecidableEq, Repr

def WorkLimits.default : WorkLimits where
  requests := 64
  requestsPerProject := 32
  interactive := { running := 2, runningPerProject := 1, queued := 64, queuedPerProject := 64 }
  analysis := { running := 2, runningPerProject := 1, queued := 32, queuedPerProject := 32 }
  native := { running := 1, runningPerProject := 1, queued := 16, queuedPerProject := 16 }

def WorkLimits.lane (l : WorkLimits) : WorkClass → LaneLimits
  | .interactive => l.interactive
  | .analysis => l.analysis
  | .native => l.native

inductive AdmissionError where
  | saturated
  | shutdown
  | stopped (r : StopReason)
  | invalidLimits
  | projectAlreadyAttached
  deriving DecidableEq, Repr

/-- The test `validate` makes of each lane. -/
def LaneLimits.invalid (l : LaneLimits) : Bool :=
  l.running == 0 || l.runningPerProject == 0 || decide (l.running < l.runningPerProject) ||
    l.queued == 0 || l.queuedPerProject == 0 || decide (l.queued < l.queuedPerProject)

def WorkLimits.validate (l : WorkLimits) : Except AdmissionError Unit :=
  if l.requests == 0 || l.requestsPerProject == 0 || decide (l.requests < l.requestsPerProject) then
    .error .invalidLimits
  else if [l.interactive, l.analysis, l.native].any LaneLimits.invalid then .error .invalidLimits
  else .ok ()

theorem WorkLimits.validate_default : WorkLimits.default.validate = .ok () := rfl

/-- What passing `validate` says about one lane. -/
structure LaneLimits.Valid (l : LaneLimits) : Prop where
  running_pos : 0 < l.runningPerProject
  running_le : l.runningPerProject ≤ l.running
  queued_pos : 0 < l.queuedPerProject
  queued_le : l.queuedPerProject ≤ l.queued

theorem LaneLimits.valid_of_not_invalid {l : LaneLimits} (h : l.invalid = false) : l.Valid := by
  simp only [invalid, Bool.or_eq_false_iff, beq_eq_false_iff_ne, decide_eq_false_iff_not] at h
  obtain ⟨⟨⟨⟨⟨h1, h2⟩, h3⟩, h4⟩, h5⟩, h6⟩ := h
  exact ⟨by omega, by omega, by omega, by omega⟩

theorem WorkLimits.validate_ok {l : WorkLimits} (h : l.validate = .ok ()) :
    0 < l.requestsPerProject ∧ l.requestsPerProject ≤ l.requests ∧ ∀ c, (l.lane c).Valid := by
  simp only [validate] at h
  split at h
  · cases h
  · rename_i h0
    split at h
    · cases h
    · rename_i h1
      simp only [Bool.or_eq_true, beq_iff_eq, decide_eq_true_eq, not_or] at h0
      simp only [List.any_cons, List.any_nil, Bool.or_eq_true, Bool.or_false, not_or,
        Bool.not_eq_true] at h1
      refine ⟨by omega, by omega, ?_⟩
      intro c
      cases c
      · exact LaneLimits.valid_of_not_invalid h1.1
      · exact LaneLimits.valid_of_not_invalid h1.2.1
      · exact LaneLimits.valid_of_not_invalid h1.2.2

structure ProjectCounts where
  requests : Nat := 0
  queued : WorkClass → Nat := fun _ => 0
  running : WorkClass → Nat := fun _ => 0

namespace ProjectCounts

def setRequests (x : ProjectCounts) (n : Nat) : ProjectCounts := { x with requests := n }

/-- `counts.queued[class.index()] = n` -/
def setQueued (x : ProjectCounts) (c : WorkClass) (n : Nat) : ProjectCounts :=
  { x with queued := Function.update x.queued c n }

def setRunning (x : ProjectCounts) (c : WorkClass) (n : Nat) : ProjectCounts :=
  { x with running := Function.update x.running c n }

variable (x : ProjectCounts) (c : WorkClass) (n : Nat)

@[simp] theorem setRequests_requests : (x.setRequests n).requests = n := rfl
@[simp] theorem setRequests_queued : (x.setRequests n).queued = x.queued := rfl
@[simp] theorem setRequests_running : (x.setRequests n).running = x.running := rfl
@[simp] theorem setQueued_requests : (x.setQueued c n).requests = x.requests := rfl
@[simp] theorem setQueued_queued : (x.setQueued c n).queued = Function.update x.queued c n := rfl
@[simp] theorem setQueued_running : (x.setQueued c n).running = x.running := rfl
@[simp] theorem setRunning_requests : (x.setRunning c n).requests = x.requests := rfl
@[simp] theorem setRunning_queued : (x.setRunning c n).queued = x.queued := rfl
@[simp] theorem setRunning_running : (x.setRunning c n).running = Function.update x.running c n :=
  rfl

end ProjectCounts

/-- `PENDING`, `ADMITTED` and `STOPPED`. -/
inductive Phase where
  | pending
  | admitted
  | stopped
  deriving DecidableEq, Repr

/-- A queued entry. `phase` names the call whose phase word it shares. -/
structure Pending where
  id : Nat
  project : PathBuf
  cls : WorkClass
  control : Nat
  phase : Nat
  deriving DecidableEq, Repr

structure Running where
  project : PathBuf
  cls : WorkClass
  control : Nat
  deriving DecidableEq, Repr

structure State where
  closed : Bool := false
  nextId : Nat := 0
  requests : AList (fun _ : Nat => Nat) := ∅
  projects : AList (fun _ : PathBuf => ProjectCounts) := ∅
  queued : List Pending := []
  running : AList (fun _ : Nat => Running) := ∅
  lastProject : WorkClass → Option PathBuf := fun _ => none

/-- `counter -= 1` on a `usize`. -/
def decr (n : Nat) : Option Nat := if n = 0 then none else some (n - 1)

/-- `next_id.checked_add(1)` on a `u64`. -/
def checkedNext (n : Nat) : Option Nat := if n + 1 < 2 ^ 64 then some (n + 1) else none

namespace State

/-- `projects.get(p)`, or a fresh record (`entry(p).or_default()`). -/
def counts (st : State) (p : PathBuf) : ProjectCounts := (st.projects.lookup p).getD {}

def queuedCount (st : State) (c : WorkClass) : Nat := st.queued.countP fun e => e.cls = c

def runningCount (st : State) (c : WorkClass) : Nat := st.running.entries.countP fun e => e.2.cls = c

def tryRequest (l : WorkLimits) (st : State) (control : Nat) : Except AdmissionError (Nat × State) :=
  if st.closed then .error .shutdown
  else if st.requests.entries.length = l.requests then .error .saturated
  else
    match checkedNext st.nextId with
    | none => .error .saturated
    | some id => .ok (id, { st with nextId := id, requests := st.requests.insert id control })

def enqueue (l : WorkLimits) (st : State) (project : PathBuf) (c : WorkClass) (control phase : Nat) :
    Except AdmissionError (Nat × State) :=
  if st.closed then .error .shutdown
  else if (l.lane c).queued ≤ st.queuedCount c ∨
      (l.lane c).queuedPerProject ≤ (st.counts project).queued c then .error .saturated
  else
    match checkedNext st.nextId with
    | none => .error .saturated
    | some id =>
      let p := st.counts project
      .ok (id, { st with
        nextId := id
        projects := st.projects.insert project (p.setQueued c (p.queued c + 1))
        queued := st.queued ++ [{ id, project, cls := c, control, phase }] })

/-- The closure `eligible` of the source: the entry is waiting in lane `c` and may run now. -/
def ready (st : State) (phases : Nat → Phase) (alive : Nat → Bool) (c : WorkClass)
    (lane : LaneLimits) (e : Pending) : Bool :=
  e.cls = c &&
  (match st.projects.lookup e.project with
    | some counts => counts.running c < lane.runningPerProject
    | none => false) &&
  phases e.phase = .pending && alive e.control

def eligible (st : State) (phases : Nat → Phase) (alive : Nat → Bool) (c : WorkClass)
    (lane : LaneLimits) : Option Nat :=
  if lane.running ≤ st.runningCount c then none
  else
    ((((st.queued.filter (st.ready phases alive c lane)).find?
        fun e => st.lastProject c ≠ some e.project).or
      (st.queued.find? (st.ready phases alive c lane))).map Pending.id)

/-- The part of the admission section after a successful phase exchange. -/
def admitEntry (st : State) (c : WorkClass) (id : Nat) : Option State :=
  match st.queued.find? fun e => e.id = id with
  | none => none
  | some e =>
    match st.projects.lookup e.project with
    | none => none
    | some p =>
      match decr (p.queued c) with
      | none => none
      | some q => some { st with
          queued := st.queued.eraseP fun e => e.id = id
          projects := st.projects.insert e.project
            ((p.setQueued c q).setRunning c (p.running c + 1))
          lastProject := Function.update st.lastProject c (some e.project)
          running := st.running.insert e.id
            { project := e.project, cls := c, control := e.control } }

def pruneProject (st : State) (p : PathBuf) : State :=
  match st.projects.lookup p with
  | some counts =>
    if counts.requests = 0 ∧ [WorkClass.interactive, .analysis, .native].all fun c =>
        counts.queued c == 0 && counts.running c == 0 then
      { st with projects := st.projects.erase p }
    else st
  | none => st

def attachProject (l : WorkLimits) (st : State) (project : PathBuf) : Except AdmissionError State :=
  if st.closed then .error .shutdown
  else if (st.projects.lookup project).any fun counts => l.requestsPerProject ≤ counts.requests then
    .error .saturated
  else
    let p := st.counts project
    .ok { st with projects := st.projects.insert project (p.setRequests (p.requests + 1)) }

/-- `if let Some(counts) = projects.get_mut(p) { .. -= 1 }` -/
def decrement (st : State) (p : PathBuf) (f : ProjectCounts → Option ProjectCounts) : Option State :=
  match st.projects.lookup p with
  | none => some st
  | some counts => (f counts).map fun counts => { st with projects := st.projects.insert p counts }

/-- Dropping a `RequestLease`. -/
def dropRequest (st : State) (id : Nat) (project : Option PathBuf) : Option State :=
  let st := { st with requests := st.requests.erase id }
  match project with
  | none => some st
  | some p =>
    (st.decrement p fun counts => (decr counts.requests).map counts.setRequests).map
      (pruneProject · p)

/-- Dropping a `PendingLease`, up to its `notify_waiters`. -/
def dropPending (st : State) (id : Nat) : Option State :=
  match st.queued.find? fun e => e.id = id with
  | none => some st
  | some e =>
    (({ st with queued := st.queued.eraseP fun e => e.id = id }).decrement e.project fun counts =>
      (decr (counts.queued e.cls)).map (counts.setQueued e.cls)).map (pruneProject · e.project)

/-- Dropping an `ExecutionLease`, up to its `notify_waiters`. -/
def dropExecution (st : State) (id : Nat) : Option State :=
  match st.running.lookup id with
  | none => some st
  | some e =>
    (({ st with running := st.running.erase id }).decrement e.project fun counts =>
      (decr (counts.running e.cls)).map (counts.setRunning e.cls)).map (pruneProject · e.project)

/-- The critical section of `shutdown`: close, and collect the controls that can be upgraded. -/
def shutdown (st : State) (alive : Nat → Bool) : State × List Nat :=
  ({ st with closed := true },
    ((st.requests.entries.map Sigma.snd) ++ (st.queued.map Pending.control) ++
      (st.running.entries.map fun e => e.2.control)).filter alive)

end State

end Mcp
end CodeSage
