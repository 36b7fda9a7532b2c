import CodeSage.Lib.Steps
import CodeSage.Lib.Tally
import CodeSage.Protocol.Control
import Mathlib.Tactic.Common

/-!
# CodeSage.Protocol.Cancellation

Cancellation of one `WorkControl` by any number of threads (`crates/protocol/src/work.rs`).

A thread is a stack of calls in progress. Its top is either user code (the empty stack, or a
callback being run), which may start any call next, or a call of the control, whose next atomic
step is fixed by its frame. So the body of a callback is arbitrary: it may cancel, load the
reason, register further callbacks and drop registrations, to any depth.

`log` is a history variable, newest event first. The results are about it:

* `reason_sticky`: one exchange succeeds, and every later load returns its reason.
* `callback_at_most_once`, `callback_exactly_once`: by a potential argument. `potential s id`
  counts the runs of callback `id` that have happened and the places from which it can still be
  run; a step never increases it, and only dropping the registration may decrease it.
-/

namespace CodeSage
namespace Protocol
namespace Cancellation

/-- A call in progress. A callback is named by its registration number. -/
inductive Frame where
  /-- User code: the body of callback `id`. -/
  | callback (id : Nat)
  /-- `cancel`, before its compare-exchange. -/
  | cancelExchange (r : StopReason)
  /-- `cancel`, after a successful exchange and before the callbacks mutex. -/
  | cancelLock
  /-- `cancel`, with the cloned callbacks still to run. -/
  | cancelRun (todo : List Nat)
  /-- `reason`, before reading the clock. -/
  | reasonDeadline
  /-- `reason`, before the load. -/
  | reasonLoad
  /-- `on_cancel`, before its `fetch_add`. -/
  | onCancelTake
  /-- `on_cancel`, before the callbacks mutex. -/
  | onCancelLock (id : Nat)
  /-- `on_cancel`, mutex released, about to run the callback itself. -/
  | onCancelCall (id : Nat)
  /-- `on_cancel`, about to return the registration. -/
  | onCancelReturn (id : Nat)
  /-- Dropping a `CancelRegistration`, before the callbacks mutex. -/
  | dropLock (id : Nat)
  deriving DecidableEq, Repr

inductive Event where
  /-- The exchange of a `cancel` succeeded. -/
  | won (r : StopReason)
  /-- A `cancel` returned; the flag says whether its exchange had succeeded. -/
  | cancelReturned (won : Bool)
  | reasonReturned (v : Option StopReason)
  /-- An `on_cancel` returned the registration of callback `id`. -/
  | registered (id : Nat)
  /-- Callback `id` was called. -/
  | ran (id : Nat)
  /-- The registration of callback `id` was dropped. -/
  | dropped (id : Nat)
  deriving DecidableEq, Repr

structure Sys where
  control : Inner Nat
  now : Nat
  threads : List (List Frame)
  /-- Registrations handed out and not dropped. -/
  held : List Nat
  log : List Event

def init (deadline : Option Nat) : Sys :=
  { control := { deadline := deadline }, now := 0, threads := [], held := [], log := [] }

inductive Act where
  | spawn
  | tick
  /-- User code of thread `t` calls `cancel`, `reason` (or `check`), `on_cancel`. -/
  | cancel (t : Nat) (r : StopReason)
  | reason (t : Nat)
  | onCancel (t : Nat)
  /-- User code of thread `t` drops the registration `id`. -/
  | drop (t : Nat) (id : Nat)
  /-- The callback at the top of thread `t` returns. -/
  | ret (t : Nat)
  /-- Thread `t` takes the next step of the call at its top. -/
  | go (t : Nat)
  deriving DecidableEq, Repr

/-- The top of the stack is user code. -/
def inUser : List Frame → Bool
  | [] => true
  | .callback _ :: _ => true
  | _ => false

/-- Thread `t` continues with stack `k`. -/
def Sys.become (s : Sys) (t : Nat) (k : List Frame) : Sys := { s with threads := s.threads.set t k }

def Sys.emit (s : Sys) (e : Event) : Sys := { s with log := e :: s.log }

/-- User code of thread `t` makes a call. -/
def call (s : Sys) (t : Nat) (f : Frame) : Lib.Outcome Sys :=
  match s.threads[t]? with
  | some k => if inUser k then .next (s.become t (f :: k)) else .disabled
  | none => .disabled

/-- The next atomic step of the call `f`, running in thread `t` above the frames `k`. -/
def advance (s : Sys) (t : Nat) (k : List Frame) : Frame → Lib.Outcome Sys
  | .callback _ => .disabled
  | .cancelExchange r =>
    match s.control.exchange r with
    | (c, true) => .next (({ s with control := c }.become t (.cancelLock :: k)).emit (.won r))
    | (_, false) => .next ((s.become t k).emit (.cancelReturned false))
  | .cancelLock => .next (s.become t (.cancelRun s.control.cloneCallbacks :: k))
  | .cancelRun [] => .next ((s.become t k).emit (.cancelReturned true))
  | .cancelRun (id :: todo) =>
    .next ((s.become t (.callback id :: .cancelRun todo :: k)).emit (.ran id))
  | .reasonDeadline =>
    if s.control.expired s.now then
      .next (s.become t (.cancelExchange .deadlineExceeded :: .reasonLoad :: k))
    else .next (s.become t (.reasonLoad :: k))
  | .reasonLoad => .next ((s.become t k).emit (.reasonReturned s.control.stopped))
  | .onCancelTake =>
    let (id, c) := s.control.takeId
    .next ({ s with control := c }.become t (.onCancelLock id :: k))
  | .onCancelLock id =>
    match s.control.register id id with
    | (c, false) => .next ({ s with control := c }.become t (.onCancelReturn id :: k))
    | (_, true) => .next (s.become t (.onCancelCall id :: k))
  | .onCancelCall id => .next ((s.become t (.callback id :: .onCancelReturn id :: k)).emit (.ran id))
  | .onCancelReturn id =>
    .next (({ s with held := id :: s.held }.become t k).emit (.registered id))
  | .dropLock id => .next ({ s with control := s.control.unregister id }.become t k)

def step (s : Sys) : Act → Lib.Outcome Sys
  | .spawn => .next { s with threads := s.threads ++ [[]] }
  | .tick => .next { s with now := s.now + 1 }
  | .cancel t r => call s t (.cancelExchange r)
  | .reason t => call s t .reasonDeadline
  | .onCancel t => call s t .onCancelTake
  | .drop t id =>
    if id ∈ s.held then
      (call s t (.dropLock id)).andThen fun s' =>
        .next ({ s' with held := s'.held.erase id }.emit (.dropped id))
    else .disabled
  | .ret t =>
    match s.threads[t]? with
    | some (.callback _ :: k) => .next (s.become t k)
    | _ => .disabled
  | .go t =>
    match s.threads[t]? with
    | some (f :: k) => advance s t k f
    | _ => .disabled

/-- Reached from a fresh control with the given deadline. -/
def Reachable (deadline : Option Nat) (s : Sys) : Prop := Lib.Steps step (init deadline) s

/-! ## What a step does to the stacks, the control and the log -/

/-- `Move s k k' c l`: in state `s` a thread with stack `k` continues with stack `k'` and leaves
the control `c` and the log `l`. -/
inductive Move (s : Sys) : List Frame → List Frame → Inner Nat → List Event → Prop where
  | cancel {k : List Frame} (r : StopReason) : Move s k (.cancelExchange r :: k) s.control s.log
  | reason {k : List Frame} : Move s k (.reasonDeadline :: k) s.control s.log
  | onCancel {k : List Frame} : Move s k (.onCancelTake :: k) s.control s.log
  | drop {k : List Frame} (id : Nat) :
      Move s k (.dropLock id :: k) s.control (.dropped id :: s.log)
  | ret {k : List Frame} (id : Nat) : Move s (.callback id :: k) k s.control s.log
  | win {k : List Frame} (r : StopReason) (h : s.control.reason = 0) :
      Move s (.cancelExchange r :: k) (.cancelLock :: k) { s.control with reason := r.toU8 }
        (.won r :: s.log)
  | lose {k : List Frame} (r : StopReason) (h : s.control.reason ≠ 0) :
      Move s (.cancelExchange r :: k) k s.control (.cancelReturned false :: s.log)
  | lock {k : List Frame} :
      Move s (.cancelLock :: k) (.cancelRun s.control.callbacks.values :: k) s.control s.log
  | finish {k : List Frame} :
      Move s (.cancelRun [] :: k) k s.control (.cancelReturned true :: s.log)
  | runNext {k : List Frame} (id : Nat) (todo : List Nat) :
      Move s (.cancelRun (id :: todo) :: k) (.callback id :: .cancelRun todo :: k) s.control
        (.ran id :: s.log)
  | expire {k : List Frame} :
      Move s (.reasonDeadline :: k) (.cancelExchange .deadlineExceeded :: .reasonLoad :: k)
        s.control s.log
  | unexpired {k : List Frame} : Move s (.reasonDeadline :: k) (.reasonLoad :: k) s.control s.log
  | load {k : List Frame} :
      Move s (.reasonLoad :: k) k s.control (.reasonReturned s.control.stopped :: s.log)
  | take {k : List Frame} :
      Move s (.onCancelTake :: k) (.onCancelLock s.control.nextCallback :: k)
        { s.control with nextCallback := s.control.nextCallback + 1 } s.log
  | register {k : List Frame} (id : Nat) (h : s.control.reason = 0) :
      Move s (.onCancelLock id :: k) (.onCancelReturn id :: k)
        { s.control with callbacks := s.control.callbacks.insert id id } s.log
  | late {k : List Frame} (id : Nat) (h : s.control.reason ≠ 0) :
      Move s (.onCancelLock id :: k) (.onCancelCall id :: k) s.control s.log
  | callNow {k : List Frame} (id : Nat) :
      Move s (.onCancelCall id :: k) (.callback id :: .onCancelReturn id :: k) s.control
        (.ran id :: s.log)
  | registered {k : List Frame} (id : Nat) :
      Move s (.onCancelReturn id :: k) k s.control (.registered id :: s.log)
  | unregister {k : List Frame} (id : Nat) :
      Move s (.dropLock id :: k) k { s.control with callbacks := s.control.callbacks.remove id }
        s.log

/-- `s'` differs from `s`, as far as the stacks, the control and the log go, by one `Move`. -/
def Moves (s s' : Sys) : Prop :=
  ∃ t k k', s.threads[t]? = some k ∧ s'.threads = s.threads.set t k' ∧
    Move s k k' s'.control s'.log

theorem call_moves {s s' : Sys} {t : Nat} {f : Frame}
    (hf : ∀ k, Move s k (f :: k) s.control s.log) (h : call s t f = .next s') : Moves s s' := by
  simp only [call] at h
  split at h
  · rename_i k hk
    split at h
    · cases h; exact ⟨t, k, f :: k, hk, rfl, hf k⟩
    · cases h
  · cases h

theorem advance_moves {s s' : Sys} {t : Nat} {k : List Frame} {f : Frame}
    (hk : s.threads[t]? = some (f :: k)) (h : advance s t k f = .next s') : Moves s s' := by
  cases f with
  | callback id => simp [advance] at h
  | cancelExchange r =>
    by_cases hr : s.control.reason = 0
    · simp only [advance, Inner.exchange, if_pos hr] at h
      cases h; exact ⟨t, _, _, hk, rfl, .win r hr⟩
    · simp only [advance, Inner.exchange, if_neg hr] at h
      cases h; exact ⟨t, _, _, hk, rfl, .lose r hr⟩
  | cancelLock => cases h; exact ⟨t, _, _, hk, rfl, .lock⟩
  | cancelRun todo =>
    cases todo with
    | nil => cases h; exact ⟨t, _, _, hk, rfl, .finish⟩
    | cons id todo => cases h; exact ⟨t, _, _, hk, rfl, .runNext id todo⟩
  | reasonDeadline =>
    simp only [advance] at h
    split at h
    · cases h; exact ⟨t, _, _, hk, rfl, .expire⟩
    · cases h; exact ⟨t, _, _, hk, rfl, .unexpired⟩
  | reasonLoad => cases h; exact ⟨t, _, _, hk, rfl, .load⟩
  | onCancelTake => cases h; exact ⟨t, _, _, hk, rfl, .take⟩
  | onCancelLock id =>
    by_cases hr : s.control.reason = 0
    · simp only [advance, Inner.register, if_pos hr] at h
      cases h; exact ⟨t, _, _, hk, rfl, .register id hr⟩
    · simp only [advance, Inner.register, if_neg hr] at h
      cases h; exact ⟨t, _, _, hk, rfl, .late id hr⟩
  | onCancelCall id => cases h; exact ⟨t, _, _, hk, rfl, .callNow id⟩
  | onCancelReturn id => cases h; exact ⟨t, _, _, hk, rfl, .registered id⟩
  | dropLock id => cases h; exact ⟨t, _, _, hk, rfl, .unregister id⟩

/-- Every step is a `Move` of one thread, a new idle thread, or a tick of the clock. -/
theorem step_cases {s s' : Sys} {a : Act} (h : step s a = .next s') :
    Moves s s' ∨ s' = { s with threads := s.threads ++ [[]] } ∨
      s' = { s with now := s.now + 1 } := by
  cases a with
  | spawn => cases h; exact .inr (.inl rfl)
  | tick => cases h; exact .inr (.inr rfl)
  | cancel t r => exact .inl (call_moves (fun _ => .cancel r) h)
  | reason t => exact .inl (call_moves (fun _ => .reason) h)
  | onCancel t => exact .inl (call_moves (fun _ => .onCancel) h)
  | drop t id =>
    simp only [step] at h
    split at h
    · obtain ⟨s1, h1, h2⟩ := Lib.Outcome.andThen_eq_next.mp h
      simp only [call] at h1
      split at h1
      · rename_i k hk
        split at h1
        · cases h1; cases h2; exact .inl ⟨t, k, _, hk, rfl, .drop id⟩
        · cases h1
      · cases h1
    · cases h
  | ret t =>
    simp only [step] at h
    split at h
    · rename_i id k hk
      cases h; exact .inl ⟨t, _, k, hk, rfl, .ret id⟩
    · cases h
  | go t =>
    simp only [step] at h
    split at h
    · rename_i f k hk
      exact .inl (advance_moves hk h)
    · cases h

/-! ## Counting invariants -/

/-- Frames of a `cancel` whose exchange succeeded. -/
def cancelW : Frame → Nat
  | .cancelLock => 1
  | .cancelRun _ => 1
  | _ => 0

/-- Frames of such a `cancel` that has not cloned the callbacks yet. -/
def lockW : Frame → Nat
  | .cancelLock => 1
  | _ => 0

/-- Frames of the `on_cancel` call that took number `id`. -/
def registerW (id : Nat) : Frame → Nat
  | .onCancelLock i => if i = id then 1 else 0
  | .onCancelCall i => if i = id then 1 else 0
  | .onCancelReturn i => if i = id then 1 else 0
  | _ => 0

/-- How often a frame can still run callback `id`, once the callbacks are cloned. -/
def runW (id : Nat) : Frame → Nat
  | .cancelRun todo => todo.count id
  | .onCancelLock i => if i = id then 1 else 0
  | .onCancelCall i => if i = id then 1 else 0
  | _ => 0

def dropW (id : Nat) : Frame → Nat
  | .dropLock i => if i = id then 1 else 0
  | _ => 0

/-- How many times the registered callbacks will still be cloned. -/
def clones (c : Inner Nat) (ts : List (List Frame)) : Nat :=
  if c.reason = 0 then 1 else Lib.tally lockW ts

/-- The runs of callback `id`: those made and those that can still happen. -/
def potential (s : Sys) (id : Nat) : Nat :=
  s.log.count (.ran id) + Lib.tally (runW id) s.threads +
    s.control.callbacks.values.count id * clones s.control s.threads

/-- Number `id` was given to an `on_cancel` call. -/
def Taken (s : Sys) (id : Nat) : Prop := 0 < id ∧ id < s.control.nextCallback

/-- The reason set by the exchanges of a log. -/
def stopOf : List Event → Option StopReason
  | [] => none
  | .won r :: _ => some r
  | _ :: l => stopOf l

/-- Every load in the log returned the reason set before it, and no exchange succeeded twice. -/
def LogOk : List Event → Prop
  | [] => True
  | .won _ :: l => stopOf l = none ∧ LogOk l
  | .reasonReturned v :: l => v = stopOf l ∧ LogOk l
  | _ :: l => LogOk l

structure Inv (s : Sys) : Prop where
  next_pos : 0 < s.control.nextCallback
  keyed : ∀ e ∈ s.control.callbacks, e.2 = e.1
  winner : Lib.tally cancelW s.threads + s.log.count (.cancelReturned true) =
    if s.control.reason = 0 then 0 else 1
  registering : ∀ id, Taken s id →
    Lib.tally (registerW id) s.threads + s.log.count (.registered id) = 1
  untaken : ∀ id, ¬ Taken s id →
    Lib.tally (registerW id) s.threads + s.log.count (.registered id) = 0 ∧ potential s id = 0
  atMost : ∀ id, potential s id ≤ 1
  exact : ∀ id, Taken s id → .dropped id ∉ s.log → potential s id = 1
  dropping : ∀ id, 0 < Lib.tally (dropW id) s.threads → .dropped id ∈ s.log
  returned : ∀ b, .cancelReturned b ∈ s.log → s.control.reason ≠ 0
  stopped : s.control.reason = ((stopOf s.log).map StopReason.toU8).getD 0
  logOk : LogOk s.log

theorem inv_init (d : Option Nat) : Inv (init d) := by
  refine ⟨by simp [init], by simp [init], by simp [init], ?_, ?_, ?_, ?_, by simp [init],
    by simp [init], rfl, trivial⟩
  · intro id h; simp only [Taken, init] at h; omega
  · intro id _; simp [potential, init, Lib.KeyMap.values]
  · intro id; simp [potential, init, Lib.KeyMap.values]
  · intro id h; simp only [Taken, init] at h; omega

section Move

variable {s : Sys} {t : Nat} {k k' : List Frame} {c : Inner Nat} {l : List Event}

theorem winner_move (hk : s.threads[t]? = some k) (hm : Move s k k' c l)
    (h : Lib.tally cancelW s.threads + s.log.count (.cancelReturned true) =
      if s.control.reason = 0 then 0 else 1) :
    Lib.tally cancelW (s.threads.set t k') + l.count (.cancelReturned true) =
      if c.reason = 0 then 0 else 1 := by
  have hT := Lib.tally_set (w := cancelW) (m := k') hk
  cases hm <;> simp_all [cancelW]
  omega

theorem registering_move (hk : s.threads[t]? = some k) (hm : Move s k k' c l) (id : Nat) :
    Lib.tally (registerW id) (s.threads.set t k') + l.count (.registered id) =
      Lib.tally (registerW id) s.threads + s.log.count (.registered id) +
        (if s.control.nextCallback = id ∧ c.nextCallback = s.control.nextCallback + 1
          then 1 else 0) := by
  have hT := Lib.tally_set (w := registerW id) (m := k') hk
  cases hm <;> simp_all [registerW, List.count_cons] <;> omega

theorem dropping_move (hk : s.threads[t]? = some k) (hm : Move s k k' c l) {id : Nat}
    (h : 0 < Lib.tally (dropW id) s.threads → .dropped id ∈ s.log)
    (hpos : 0 < Lib.tally (dropW id) (s.threads.set t k')) : .dropped id ∈ l := by
  have hT := Lib.tally_set (w := dropW id) (m := k') hk
  cases hm with
  | drop i =>
    by_cases hi : i = id
    · subst hi; exact List.mem_cons_self
    · simp only [dropW, Lib.weigh_cons, hi, if_false] at hT
      exact List.mem_cons_of_mem _ (h (by omega))
  | unregister i =>
    simp only [dropW, Lib.weigh_cons] at hT
    exact h (by split at hT <;> omega)
  | _ =>
    simp only [dropW, Lib.weigh_cons] at hT
    first
      | exact h (by omega)
      | exact List.mem_cons_of_mem _ (h (by omega))

theorem lockW_le (ts : List (List Frame)) : Lib.tally lockW ts ≤ Lib.tally cancelW ts :=
  Lib.tally_le (fun f => by cases f <;> simp [lockW, cancelW]) ts

/-- While the reason is not set no `cancel` has won, so none waits to clone the callbacks. -/
theorem Inv.lock_eq_zero (hi : Inv s) (h : s.control.reason = 0) :
    Lib.tally lockW s.threads = 0 := by
  have hw := hi.winner
  rw [if_pos h] at hw
  have := lockW_le s.threads
  omega

theorem Inv.lock_le_one (hi : Inv s) : Lib.tally lockW s.threads ≤ 1 := by
  have hw := hi.winner
  have := lockW_le s.threads
  split at hw <;> omega

/-- A number on its way into the callbacks map is not in it yet: both places count towards the
potential of its callback. -/
theorem Inv.fresh (hi : Inv s) {id : Nat} (hk : s.threads[t]? = some (.onCancelLock id :: k))
    (h : s.control.reason = 0) : id ∉ s.control.callbacks.keys := by
  intro hmem
  obtain ⟨e, he, rfl⟩ := List.mem_map.mp hmem
  have hv : 0 < s.control.callbacks.values.count e.1 :=
    List.count_pos_iff.mpr (List.mem_map.mpr ⟨e, he, hi.keyed e he⟩)
  have hr := Lib.weigh_le_tally (w := runW e.1) hk
  have hp := hi.atMost e.1
  simp only [runW, Lib.weigh_cons, if_true] at hr
  simp only [potential, clones, if_pos h, Nat.mul_one] at hp
  omega

/-- The callback whose number a step takes from `next_callback`. -/
def taking (s : Sys) (c : Inner Nat) (id : Nat) : Nat :=
  if s.control.nextCallback = id ∧ c.nextCallback = s.control.nextCallback + 1 then 1 else 0

/-- A step keeps every potential, apart from the number it takes and the one it unregisters. -/
theorem potential_move (hi : Inv s) (hk : s.threads[t]? = some k) (hm : Move s k k' c l)
    (id : Nat) :
    l.count (.ran id) + Lib.tally (runW id) (s.threads.set t k') +
        c.callbacks.values.count id * clones c (s.threads.set t k') ≤
      potential s id + taking s c id ∧
    (k ≠ .dropLock id :: k' →
      l.count (.ran id) + Lib.tally (runW id) (s.threads.set t k') +
        c.callbacks.values.count id * clones c (s.threads.set t k') =
      potential s id + taking s c id) := by
  have hR := Lib.tally_set (w := runW id) (m := k') hk
  have hL := Lib.tally_set (w := lockW) (m := k') hk
  cases hm with
  | win r h =>
    have h0 := hi.lock_eq_zero h
    simp only [lockW, runW, Lib.weigh_cons] at hL hR
    have hl : Lib.tally lockW (s.threads.set t (.cancelLock :: ‹_›)) = 1 := by omega
    simp [potential, clones, taking, h, hl]
    omega
  | lock =>
    have hwin := hi.winner
    have hpos := Lib.weigh_le_tally (w := lockW) hk
    have hle := hi.lock_le_one
    have hc := lockW_le s.threads
    simp only [lockW, runW, Lib.weigh_cons] at hL hR hpos
    have hr : s.control.reason ≠ 0 := by
      intro h; rw [if_pos h] at hwin; omega
    have h1 : Lib.tally lockW s.threads = 1 := by omega
    have h0 : Lib.tally lockW
        (s.threads.set t (.cancelRun s.control.callbacks.values :: ‹_›)) = 0 := by omega
    simp [potential, clones, taking, hr, h0, h1]
    omega
  | register i h =>
    have hf := hi.fresh hk h
    simp only [lockW, runW, Lib.weigh_cons] at hL hR
    simp only [potential, clones, taking, h, if_true, Nat.mul_one,
      Lib.KeyMap.count_values_insert hf]
    split at hR <;> simp_all
    omega
  | unregister i =>
    simp only [lockW, runW, Lib.weigh_cons] at hL hR
    have hl : Lib.tally lockW (s.threads.set t k') = Lib.tally lockW s.threads := by omega
    have hle := Lib.KeyMap.count_values_remove_le i id s.control.callbacks
    simp only [potential, clones, taking, hl]
    refine ⟨?_, ?_⟩
    · have := Nat.mul_le_mul_right
        (if s.control.reason = 0 then 1 else Lib.tally lockW s.threads) hle
      omega
    · intro hne
      have hid : id ≠ i := by rintro rfl; exact hne rfl
      rw [Lib.KeyMap.count_values_remove hi.keyed hid]
      simp
      omega
  | _ =>
    simp only [lockW, runW, Lib.weigh_cons, List.count_cons, List.count_nil, beq_iff_eq,
      Nat.zero_add] at hL hR
    have hl := Nat.add_right_cancel hL
    simp [potential, clones, taking, hl, List.count_cons]
    omega

theorem stopped_move (hm : Move s k k' c l)
    (hs : s.control.reason = ((stopOf s.log).map StopReason.toU8).getD 0) (hl : LogOk s.log) :
    c.reason = ((stopOf l).map StopReason.toU8).getD 0 ∧ LogOk l := by
  have hnone : s.control.reason = 0 → stopOf s.log = none := by
    intro h0
    cases hst : stopOf s.log with
    | none => rfl
    | some r => rw [hst] at hs; exact absurd (hs.symm.trans h0) (StopReason.toU8_ne_zero r)
  have hload : s.control.stopped = stopOf s.log := by
    rw [Inner.stopped, hs]
    cases stopOf s.log with
    | none => rfl
    | some r => exact StopReason.ofU8_toU8 r
  cases hm with
  | win r h => exact ⟨rfl, hnone h, hl⟩
  | load => exact ⟨hs, hload, hl⟩
  | _ => exact ⟨hs, hl⟩

/-- Once set, the reason word is never written again. -/
theorem reason_move (hm : Move s k k' c l) (h : s.control.reason ≠ 0) :
    c.reason = s.control.reason := by
  cases hm with
  | win r h0 => exact absurd h0 h
  | _ => rfl

/-- A `cancel` returns only when the reason is set, by itself or by another. -/
theorem returned_move (hi : Inv s) (hk : s.threads[t]? = some k) (hm : Move s k k' c l) (b : Bool)
    (h : .cancelReturned b ∈ l) : c.reason ≠ 0 := by
  have hold : .cancelReturned b ∈ s.log → c.reason ≠ 0 := by
    intro h
    have := hi.returned b h
    rwa [reason_move hm this]
  cases hm with
  | win r _ => exact StopReason.toU8_ne_zero r
  | lose r hr => exact hr
  | finish =>
    intro h0
    have hw := hi.winner
    have := Lib.weigh_le_tally (w := cancelW) hk
    simp only [cancelW, Lib.weigh_cons] at this
    rw [if_pos h0] at hw
    omega
  | _ => exact hold (by simpa using h)

theorem taken_iff (hm : Move s k k' c l) (id : Nat) :
    (0 < id ∧ id < c.nextCallback) ↔ Taken s id ∨ (0 < id ∧ taking s c id = 1) := by
  cases hm <;> simp [Taken, taking]
  omega

end Move

theorem inv_moves {s s' : Sys} (hi : Inv s) (h : Moves s s') : Inv s' := by
  obtain ⟨c, now, ts, held, l⟩ := s'
  obtain ⟨t, k, k', hk, hts, hm⟩ := h
  simp only at hts hm
  subst hts
  have hreg := registering_move hk hm
  have hpot := potential_move hi hk hm
  obtain ⟨hst, hlog⟩ := stopped_move hm hi.stopped hi.logOk
  -- a number just taken was not taken before, so its potential rises from 0 to 1
  have hnew : ∀ id, taking s c id = 1 → ¬ Taken s id := by
    intro id h ht
    simp only [taking] at h
    split at h
    · rename_i hn; exact absurd ht.2 (by omega)
    · cases h
  have hbit : ∀ id, taking s c id = 0 ∨ taking s c id = 1 := by
    intro id; simp only [taking]; split <;> simp
  refine ⟨?_, ?_, winner_move hk hm hi.winner, ?_, ?_, ?_, ?_, ?_, returned_move hi hk hm, hst,
    hlog⟩
  · cases hm with
    | take => exact Nat.succ_pos _
    | _ => exact hi.next_pos
  · have hkd := hi.keyed
    cases hm with
    | register i h =>
      intro e he
      rcases Lib.KeyMap.mem_insert he with rfl | he
      · rfl
      · exact hkd e he
    | unregister i => intro e he; exact hkd e (Lib.KeyMap.mem_remove.mp he).1
    | _ => exact hkd
  · intro id ht
    have hr := hreg id
    rcases (taken_iff hm id).mp ht with ht | ⟨h0, h1⟩
    · have h1 := hi.registering id ht
      rcases hbit id with hb | hb
      · simp only [taking] at hb; simp only; omega
      · exact absurd ht (hnew id hb)
    · have h0 := (hi.untaken id (hnew id h1)).1
      simp only [taking] at h1; simp only; omega
  · intro id ht
    have hr := hreg id
    have hp := (hpot id).1
    have hn : ¬ Taken s id := fun h => ht ((taken_iff hm id).mpr (.inl h))
    obtain ⟨hu, hv⟩ := hi.untaken id hn
    have hb : taking s c id = 0 := by
      rcases hbit id with hb | hb
      · exact hb
      · refine absurd ((taken_iff hm id).mpr (.inr ⟨?_, hb⟩)) ht
        have := hi.next_pos
        simp only [taking] at hb
        split at hb <;> omega
    simp only [potential] at hp hv ⊢
    simp only [taking] at hb hp
    omega
  · intro id
    have hp := (hpot id).1
    have h1 := hi.atMost id
    rcases hbit id with hb | hb
    · simp only [potential] at hp h1 ⊢; omega
    · have h0 := (hi.untaken id (hnew id hb)).2
      simp only [potential] at hp h0 ⊢; omega
  · intro id ht hd
    have hlog : ∀ e ∈ s.log, e ∈ l := by
      cases hm <;> first | exact fun e he => he | exact fun e he => List.mem_cons_of_mem _ he
    have hne : k ≠ .dropLock id :: k' := by
      rintro rfl
      have hw := Lib.weigh_le_tally (w := dropW id) hk
      simp only [dropW, Lib.weigh_cons, if_true] at hw
      exact hd (hlog _ (hi.dropping id (by omega)))
    have hp := (hpot id).2 hne
    rcases (taken_iff hm id).mp ht with ht | ⟨h0, h1⟩
    · have h1 := hi.exact id ht fun h => hd (hlog _ h)
      rcases hbit id with hb | hb
      · simp only [potential] at hp h1 ⊢; omega
      · exact absurd ht (hnew id hb)
    · have h0 := (hi.untaken id (hnew id h1)).2
      simp only [potential] at hp h0 ⊢; omega
  · intro id hpos
    exact dropping_move hk hm (hi.dropping id) hpos

theorem inv_step {s s' : Sys} {a : Act} (hi : Inv s) (h : step s a = .next s') : Inv s' := by
  rcases step_cases h with h | rfl | rfl
  · exact inv_moves hi h
  · have hp : ∀ id, potential { s with threads := s.threads ++ [[]] } id = potential s id := by
      intro id; simp [potential, clones]
    exact ⟨hi.next_pos, hi.keyed, by simpa using hi.winner, by simpa [Taken] using hi.registering,
      by simpa [Taken, hp] using hi.untaken, by simpa [hp] using hi.atMost,
      by simpa [Taken, hp] using hi.exact, by simpa using hi.dropping, hi.returned, hi.stopped,
      hi.logOk⟩
  · exact ⟨hi.next_pos, hi.keyed, hi.winner, hi.registering, hi.untaken, hi.atMost, hi.exact,
      hi.dropping, hi.returned, hi.stopped, hi.logOk⟩

theorem Reachable.inv {d : Option Nat} {s : Sys} (h : Reachable d s) : Inv s :=
  Lib.Steps.invariant (fun _ _ _ => inv_step) h (inv_init d)

/-! ## The protocol -/

theorem reason_sticky {s s' : Sys} (h : Lib.Steps step s s') (hs : s.control.reason ≠ 0) :
    s'.control.reason = s.control.reason := by
  induction h with
  | refl => rfl
  | tail a _ hstep ih =>
    rcases step_cases hstep with ⟨t, k, k', _, _, hm⟩ | rfl | rfl
    · rw [reason_move hm (by rwa [ih]), ih]
    · exact ih
    · exact ih

/-- What a well-formed log says about a load that comes after a successful exchange. -/
theorem load_after_won {r : StopReason} {v : Option StopReason} {newer older : List Event}
    (h : LogOk (newer ++ .reasonReturned v :: older)) (hr : .won r ∈ older) : v = some r := by
  have hstop : ∀ l, LogOk l → .won r ∈ l → stopOf l = some r := by
    intro l
    induction l with
    | nil => intro _ h; cases h
    | cons e l ih =>
      intro hl hmem
      rcases List.mem_cons.mp hmem with rfl | hmem'
      · rfl
      · cases e with
        | won r' => rw [LogOk, ih hl.2 hmem'] at hl; cases hl.1
        | reasonReturned _ => exact ih hl.2 hmem'
        | _ => exact ih hl hmem'
  induction newer with
  | nil => rw [h.1]; exact hstop older h.2 hr
  | cons e newer ih =>
    cases e with
    | won _ => exact ih h.2
    | reasonReturned _ => exact ih h.2
    | _ => exact ih h

/-- Once its `on_cancel` and the winning `cancel` have returned, nothing can run a callback any
more, so a registered callback has used up its potential. -/
theorem ran_of_returned {s : Sys} (hi : Inv s) {id : Nat} (hr : .registered id ∈ s.log)
    (hd : .dropped id ∉ s.log) (hw : .cancelReturned true ∈ s.log) :
    s.log.count (.ran id) = 1 := by
  have hreg := List.count_pos_iff.mpr hr
  have hwin := List.count_pos_iff.mpr hw
  have ht : Taken s id := by
    by_contra h
    have := (hi.untaken id h).1
    omega
  have hreason := hi.returned true hw
  have hcancel : Lib.tally cancelW s.threads = 0 := by
    have := hi.winner
    rw [if_neg hreason] at this
    omega
  have hregister : Lib.tally (registerW id) s.threads = 0 := by
    have := hi.registering id ht
    omega
  have hrun : Lib.tally (runW id) s.threads = 0 := by
    rw [Lib.tally_eq_zero] at hcancel hregister ⊢
    intro k hk f hf
    have h1 := hcancel k hk f hf
    have h2 := hregister k hk f hf
    cases f <;> simp_all [runW, registerW, cancelW]
  have hp := hi.exact id ht hd
  have hlock := lockW_le s.threads
  have hl : Lib.tally lockW s.threads = 0 := by omega
  simp only [potential, clones, if_neg hreason, hl, hrun] at hp
  omega

theorem quiescent_returned {s : Sys} (hi : Inv s) (hq : ∀ k ∈ s.threads, k = []) {b : Bool}
    (h : .cancelReturned b ∈ s.log) : .cancelReturned true ∈ s.log := by
  have hw := hi.winner
  rw [if_neg (hi.returned b h)] at hw
  have h0 : Lib.tally cancelW s.threads = 0 := by
    rw [Lib.tally_eq_zero]
    intro k hk f hf
    rw [hq k hk] at hf
    cases hf
  exact List.count_pos_iff.mp (by omega)

/-- **The cancellation protocol**, for every schedule of any number of threads. The reason never
changes once set and every later `reason()` returns it; a callback runs at most once; and it has
run exactly once when its `on_cancel` and the `cancel` that set the reason have returned, unless
its registration was dropped. When no call is in progress, any returned `cancel` will do. -/
theorem cancellation_protocol {d : Option Nat} {s : Sys} (h : Reachable d s) :
    (∀ s', Lib.Steps step s s' → s.control.reason ≠ 0 →
      s'.control.reason = s.control.reason) ∧
    (∀ newer older v r, s.log = newer ++ .reasonReturned v :: older → .won r ∈ older →
      v = some r) ∧
    (∀ id, s.log.count (.ran id) ≤ 1) ∧
    (∀ id, .registered id ∈ s.log → .dropped id ∉ s.log →
      (.cancelReturned true ∈ s.log ∨
        (∃ b, .cancelReturned b ∈ s.log) ∧ ∀ k ∈ s.threads, k = []) →
      s.log.count (.ran id) = 1) := by
  have hi := h.inv
  refine ⟨fun s' hs hr => reason_sticky hs hr, ?_, ?_, ?_⟩
  · intro newer older v r hlog hr
    exact load_after_won (hlog ▸ hi.logOk) hr
  · intro id
    have := hi.atMost id
    simp only [potential] at this
    omega
  · rintro id hr hd (hw | ⟨⟨b, hb⟩, hq⟩)
    · exact ran_of_returned hi hr hd hw
    · exact ran_of_returned hi hr hd (quiescent_returned hi hq hb)

/-- Thread 0 registers a callback, thread 1 cancels and runs it; inside, the callback registers
another one, which runs at once. -/
def nestedTrace : List Act :=
  [.spawn, .spawn, .onCancel 0, .go 0, .go 0, .go 0, .cancel 1 .clientCancelled, .go 1, .go 1,
   .go 1, .onCancel 1, .go 1, .go 1, .go 1, .ret 1, .go 1, .ret 1, .go 1]

theorem cancellation_protocol_nested :
    ∃ s, Reachable none s ∧ s.log.count (.ran 1) = 1 ∧ s.log.count (.ran 2) = 1 := by
  obtain ⟨s, hs, hp⟩ := Lib.steps_of_run step (init none) nestedTrace
    (fun s => decide (.registered 1 ∈ s.log ∧ .registered 2 ∈ s.log ∧ .dropped 1 ∉ s.log ∧
      .dropped 2 ∉ s.log ∧ .cancelReturned true ∈ s.log)) (by decide)
  obtain ⟨h1, h2, h3, h4, h5⟩ := of_decide_eq_true hp
  have hc := (cancellation_protocol hs).2.2.2
  exact ⟨s, hs, hc 1 h1 h3 (.inl h5), hc 2 h2 h4 (.inl h5)⟩

/-- Two `cancel` calls race: thread 1 wins the exchange and is not scheduled again, thread 0
loses it and returns at once. -/
def losingTrace : List Act :=
  [.spawn, .spawn, .onCancel 0, .go 0, .go 0, .go 0, .cancel 1 .shutdown, .go 1,
   .cancel 0 .clientCancelled, .go 0]

/-- A `cancel` that loses the exchange returns before the registered callback has run. -/
theorem losing_cancel_returns_first :
    ¬ ∀ d s, Reachable d s → ∀ id, .registered id ∈ s.log → .dropped id ∉ s.log →
      (∃ b, .cancelReturned b ∈ s.log) → s.log.count (.ran id) = 1 := by
  intro hall
  obtain ⟨s, hs, hp⟩ := Lib.steps_of_run step (init none) losingTrace
    (fun s => decide (.registered 1 ∈ s.log ∧ .dropped 1 ∉ s.log ∧
      .cancelReturned false ∈ s.log ∧ s.log.count (.ran 1) = 0)) (by decide)
  obtain ⟨h1, h2, h3, h4⟩ := of_decide_eq_true hp
  have := hall none s hs 1 h1 h2 ⟨false, h3⟩
  omega

end Cancellation
end Protocol
end CodeSage
