import CodeSage.Lib.Steps
import CodeSage.Lib.Table
import Mathlib.Logic.Function.Basic

/-!
# CodeSage.Mcp.Watchers

The watcher registry (`crates/cli/src/mcp/state.rs`): `ensure_watcher` with its reservation, `stop_project_watcher`,
`stop_all_watchers_if`, the retention in `cache_project` and the exits of watcher threads, each section under the
registry lock one step. Calls are numbered. The two flags that an `ensure_watcher` call makes, `shutdown` and
`alive`, are known by the number of that call, and so is the join handle of the thread it spawns: `Arc::ptr_eq` of
two flags is equality of numbers. A wait ends with the exit seen, or in a timeout at any time.
-/

namespace CodeSage
namespace Mcp
namespace Watchers

open Lib

variable {Root Key : Type}

structure WatcherEntry (Key : Type) where
  shutdown : Nat
  alive : Nat
  configKey : Key
  thread : Option Nat
  stoppingSince : Option Nat
  deriving DecidableEq

/-- What a call has taken out of an entry before it waits. -/
structure Taken (Root : Type) where
  root : Root
  alive : Nat
  thread : Option Nat
  deriving DecidableEq

/-- Where a call is. -/
inductive Call (Root Key : Type) where
  /-- finished, or not begun -/
  | ended
  /-- `reserve_watcher_slot`, at the head of its loop -/
  | reserving (root : Root) (configKey : Key)
  | reserveWaiting (configKey : Key) (taken : Taken Root)
  | reserveTimedOut (configKey : Key) (taken : Taken Root)
  /-- holds an armed `WatcherReservation`, nothing spawned -/
  | reserved (root : Root)
  /-- the thread runs, its handle is not stored -/
  | storing (root : Root)
  /-- a stop: the entries it has signalled and not settled, in order -/
  | stopWaiting (pending : List (Taken Root))
  /-- the exit of the first one was seen and its thread joined -/
  | stopReaping (root : Root) (alive : Nat) (rest : List (Taken Root))
  | stopTimedOut (taken : Taken Root) (rest : List (Taken Root))
  deriving DecidableEq

structure State (Root Key : Type) where
  registry : Table Root (WatcherEntry Key)
  alive : Nat → Bool
  shutdown : Nat → Bool
  /-- The calls made so far. -/
  calls : Nat
  call : Nat → Call Root Key
  /-- The root whose watcher thread this call has spawned. -/
  spawned : Nat → Option Root
  /-- Its handle has been stored in the registry. -/
  stored : Nat → Bool
  /-- Its slot was taken away while it was wedged. -/
  detached : Nat → Bool
  now : Nat

/-- 15 minutes, in seconds -/
def WATCHER_STUCK_FORCE_DETACH : Nat := 15 * 60

section Step

variable [DecidableEq Root] [DecidableEq Key]

def State.setCall (s : State Root Key) (c : Nat) (call : Call Root Key) : State Root Key :=
  { s with call := Function.update s.call c call }

def State.insert (s : State Root Key) (root : Root) (entry : WatcherEntry Key) : State Root Key :=
  { s with registry := s.registry.insert root entry }

def State.erase (s : State Root Key) (root : Root) : State Root Key := { s with registry := s.registry.erase root }

/-- Signal the entry of a root and take its handle. -/
def signal (s : State Root Key) (root : Root) (entry : WatcherEntry Key) : State Root Key :=
  { s.insert root { entry with thread := none } with shutdown := Function.update s.shutdown entry.shutdown true }

/-- The entry of a root, if it is still the one with this `alive` flag. -/
def slot (s : State Root Key) (root : Root) (alive : Nat) : Option (WatcherEntry Key) :=
  (s.registry.lookup root).filter fun entry => entry.alive = alive

/-- The first section of a stop, over the roots in order. -/
def signalAll (s : State Root Key) : List Root → State Root Key × List (Taken Root)
  | [] => (s, [])
  | root :: roots =>
    match s.registry.lookup root with
    | none => signalAll s roots
    | some entry =>
      ((signalAll (signal s root entry) roots).1,
        ⟨root, entry.alive, entry.thread⟩ :: (signalAll (signal s root entry) roots).2)

/-- `reserve_watcher_slot` under the lock: an entry that lives, or a new one. -/
def reserve (s : State Root Key) (c : Nat) (root : Root) (configKey : Key) : State Root Key :=
  match (s.registry.lookup root).filter fun entry => s.alive entry.alive with
  | some entry =>
    if !s.shutdown entry.shutdown && entry.configKey = configKey then s.setCall c .ended
    else (signal s root entry).setCall c (.reserveWaiting configKey ⟨root, entry.alive, entry.thread⟩)
  | none => (s.insert root ⟨c, c, configKey, none, none⟩).setCall c (.reserved root)

/-- What is put back after a timeout: what was taken, or nothing. -/
def putBack (s : State Root Key) (taken : Taken Root) : State Root Key :=
  match slot s taken.root taken.alive with
  | some entry => s.insert taken.root { entry with thread := taken.thread }
  | none => s

/-- The start of the stop, with `get_or_insert_with(Instant::now)`. -/
def State.since (s : State Root Key) (entry : WatcherEntry Key) : Nat := entry.stoppingSince.getD s.now

def State.wedged (s : State Root Key) (entry : WatcherEntry Key) : Bool :=
  decide (WATCHER_STUCK_FORCE_DETACH ≤ s.now - s.since entry)

/-- The timeout of `reserve_watcher_slot` under the lock. -/
def reserveTimeout (s : State Root Key) (c : Nat) (configKey : Key) (taken : Taken Root) : State Root Key :=
  match slot s taken.root taken.alive with
  | none => s.setCall c .ended
  | some entry =>
    if s.wedged entry then
      { (s.erase taken.root).setCall c (.reserving taken.root configKey) with
        detached := Function.update s.detached taken.alive true }
    else
      (s.insert taken.root { entry with thread := taken.thread, stoppingSince := some (s.since entry) }).setCall c .ended

/-- A stop goes on with its next entry. -/
def stopNext (rest : List (Taken Root)) : Call Root Key := if rest.isEmpty then .ended else .stopWaiting rest

/-- The next section of a call. `answer` is what is open about it: whether a wait ends in the exit it waits for, and
whether a reservation ends in a thread. -/
def advance (s : State Root Key) (c : Nat) (answer : Bool) : Outcome (State Root Key) :=
  match s.call c with
  | .ended => .disabled
  | .reserving root configKey => .next (reserve s c root configKey)
  | .reserveWaiting configKey taken =>
    if answer then
      if s.alive taken.alive then .disabled else .next (s.setCall c (.reserving taken.root configKey))
    else .next (s.setCall c (.reserveTimedOut configKey taken))
  | .reserveTimedOut configKey taken => .next (reserveTimeout s c configKey taken)
  | .reserved root =>
    if answer then .next { s.setCall c (.storing root) with spawned := Function.update s.spawned c (some root) }
    else
      -- the drop of the armed reservation
      match (s.registry.lookup root).filter fun entry => entry.shutdown = c with
      | some _ => .next ((s.erase root).setCall c .ended)
      | none => .next (s.setCall c .ended)
  | .storing root =>
    match (s.registry.lookup root).filter fun entry => entry.shutdown = c with
    | some entry =>
      .next { (s.insert root { entry with thread := some c }).setCall c .ended with
        stored := Function.update s.stored c true }
    | none => .next (s.setCall c .ended)
  | .stopWaiting [] => .next (s.setCall c .ended)
  | .stopWaiting (taken :: rest) =>
    if answer then
      if s.alive taken.alive then .disabled else .next (s.setCall c (.stopReaping taken.root taken.alive rest))
    else .next (s.setCall c (.stopTimedOut taken rest))
  | .stopReaping root alive rest =>
    match slot s root alive with
    | some _ => .next ((s.erase root).setCall c (stopNext rest))
    | none => .next (s.setCall c (stopNext rest))
  | .stopTimedOut taken rest => .next ((putBack s taken).setCall c (stopNext rest))

/-- A stop of these roots. -/
def beginStop (s : State Root Key) (roots : List Root) : State Root Key :=
  { ((signalAll s roots).1.setCall s.calls (stopNext (signalAll s roots).2)) with calls := s.calls + 1 }

inductive Act (Root Key : Type) where
  /-- `ensure_watcher` -/
  | ensure (root : Root) (configKey : Key)
  /-- `stop_project_watcher` -/
  | stopProject (root : Root)
  /-- `stop_all_watchers_if`, with the roots in the order of the hash map -/
  | stopAll (roots : List Root)
  /-- the retention of live entries in `cache_project` -/
  | retain
  | go (c : Nat) (answer : Bool)
  /-- a watcher thread ends: the drop of its `AliveGuard` -/
  | exit (w : Nat)
  | tick (seconds : Nat)

def step (s : State Root Key) : Act Root Key → Outcome (State Root Key)
  | .ensure root configKey =>
    .next { s.setCall s.calls (.reserving root configKey) with
      calls := s.calls + 1
      shutdown := Function.update s.shutdown s.calls false
      alive := Function.update s.alive s.calls true }
  | .stopProject root => .next (beginStop s [root])
  | .stopAll roots => if roots.Perm s.registry.keys then .next (beginStop s roots) else .disabled
  | .retain => .next { s with registry := s.registry.deleteRows fun entry => !s.alive entry.alive }
  | .go c answer => advance s c answer
  | .exit w => if (s.spawned w).isSome then .next { s with alive := Function.update s.alive w false } else .disabled
  | .tick seconds => .next { s with now := s.now + seconds }

end Step

/-- A server that has just started. -/
structure Initial [DecidableEq Root] (s : State Root Key) : Prop where
  registry : s.registry = ∅
  call : ∀ c, s.call c = .ended
  spawned : ∀ w, s.spawned w = none
  stored : ∀ w, s.stored w = false
  detached : ∀ w, s.detached w = false

/-- The call has a watcher for this root, reserved or spawned, with its `alive` flag set. -/
def Live (s : State Root Key) (w : Nat) (root : Root) : Prop :=
  s.alive w = true ∧ (s.call w = .reserved root ∨ s.spawned w = some root)

/-- One watcher for each root, apart from slots that were force-detached. -/
def OneWatcher (s : State Root Key) : Prop := ∀ root w w', Live s w root → Live s w' root →
  s.detached w = false → s.detached w' = false → w = w'

/-- The registry entry a section is about: its root and its flag. -/
def Call.target (c : Nat) : Call Root Key → Option (Root × Nat)
  | .reserveTimedOut _ taken => some (taken.root, taken.alive)
  | .reserved root => some (root, c)
  | .storing root => some (root, c)
  | .stopReaping root alive _ => some (root, alive)
  | .stopTimedOut taken _ => some (taken.root, taken.alive)
  | _ => none

/-- The handles a call holds. -/
def Call.handles : Call Root Key → List Nat
  | .reserveWaiting _ taken => taken.thread.toList
  | .reserveTimedOut _ taken => taken.thread.toList
  | .stopWaiting pending => pending.filterMap Taken.thread
  | .stopReaping _ _ rest => rest.filterMap Taken.thread
  | .stopTimedOut taken rest => (taken :: rest).filterMap Taken.thread
  | _ => []

section Properties

variable [DecidableEq Root] [DecidableEq Key]

/-- A stop signals the entry of its root, and a section that settles an entry leaves every other one as it was. -/
structure OwnEntryOnly (s : State Root Key) (a : Act Root Key) (s' : State Root Key) : Prop where
  signals : ∀ root, a = .stopProject root → ∀ root', root' ≠ root → s'.registry.lookup root' = s.registry.lookup root'
  settles : ∀ c answer root alive, a = .go c answer → (s.call c).target c = some (root, alive) →
    ∀ root' entry, s.registry.lookup root' = some entry →
      s'.registry.lookup root' = some entry ∨ root' = root ∧ entry.alive = alive

/-- A stored handle of a live watcher that was not force-detached is in its entry or with a call. -/
def HandlesHeld (s : State Root Key) : Prop := ∀ w root, s.spawned w = some root → s.alive w = true →
  s.detached w = false → s.stored w = true →
    (∃ entry, s.registry.lookup root = some entry ∧ entry.alive = w ∧ entry.thread = some w) ∨
      ∃ c, w ∈ (s.call c).handles

/-- The entry holds no handle of a live watcher. -/
def idle (s : State Root Key) (entry : WatcherEntry Key) : Bool := entry.thread.all fun w => !s.alive w

/-- A call that has taken no handle does not put nothing back over the handle of a live watcher. -/
def undisturbed (s : State Root Key) : Act Root Key → Bool
  | .go c _ =>
    match s.call c with
    | .reserveTimedOut _ ⟨root, alive, none⟩ =>
      (slot s root alive).all fun entry => s.wedged entry || idle s entry
    | .stopTimedOut ⟨root, alive, none⟩ _ => (slot s root alive).all fun entry => idle s entry
    | _ => true
  | _ => true

end Properties

end Watchers
end Mcp
end CodeSage
