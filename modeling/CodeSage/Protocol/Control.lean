import CodeSage.Lib.KeyMap

/-!
# CodeSage.Protocol.Control

The shared cell behind a `WorkControl` (`crates/protocol/src/work.rs`) and the operations on it
that are one atomic step each: the compare-exchange and the load of the `reason` word, the
`fetch_add` of `next_callback`, and the three critical sections of the `callbacks` mutex.

The programs that use them (`cancel`, `reason`, `on_cancel`, dropping a `CancelRegistration`)
take several such steps, with other threads in between; `Protocol.Cancellation` interleaves them
for one control, `Mcp.Coordinator` uses them for the controls of queued work.

Callbacks are values of a type `κ` chosen by the user of this module. Registration numbers are
natural numbers: the source counts them in 64 bits, which no run exhausts.
-/

namespace CodeSage
namespace Protocol

inductive StopReason where
  | clientCancelled
  | connectionClosed
  | deadlineExceeded
  | noConsumers
  | shutdown
  | incomplete
  deriving DecidableEq, Repr

/-- `reason as u8`: the variants are numbered from 1, and 0 stands for "not stopped". -/
def StopReason.toU8 : StopReason → UInt8
  | .clientCancelled => 1
  | .connectionClosed => 2
  | .deadlineExceeded => 3
  | .noConsumers => 4
  | .shutdown => 5
  | .incomplete => 6

/-- The `match` at the end of `WorkControl::reason`. -/
def StopReason.ofU8 : UInt8 → Option StopReason
  | 1 => some .clientCancelled
  | 2 => some .connectionClosed
  | 3 => some .deadlineExceeded
  | 4 => some .noConsumers
  | 5 => some .shutdown
  | 6 => some .incomplete
  | _ => none

@[simp] theorem StopReason.ofU8_toU8 (r : StopReason) : ofU8 r.toU8 = some r := by
  cases r <;> rfl

@[simp] theorem StopReason.toU8_ne_zero (r : StopReason) : r.toU8 ≠ 0 := by
  cases r <;> decide

/-- `struct Inner`; times are clock readings. The work lease slot is not modelled. -/
structure Inner (κ : Type) where
  reason : UInt8 := 0
  deadline : Option Nat := none
  nextCallback : Nat := 1
  callbacks : Lib.KeyMap κ := []

namespace Inner

variable {κ : Type}

/-- `reason.compare_exchange(0, r as u8)`: the new cell, and whether the exchange happened. -/
def exchange (c : Inner κ) (r : StopReason) : Inner κ × Bool :=
  if c.reason = 0 then ({ c with reason := r.toU8 }, true) else (c, false)

/-- The load of the reason word, decoded. -/
def stopped (c : Inner κ) : Option StopReason := StopReason.ofU8 c.reason

/-- `deadline.is_some_and(|deadline| Instant::now() >= deadline)` -/
def expired (c : Inner κ) (now : Nat) : Bool :=
  match c.deadline with
  | some d => d ≤ now
  | none => false

/-- The critical section of `cancel`: clone the registered callbacks. -/
def cloneCallbacks (c : Inner κ) : List κ := c.callbacks.values

/-- `next_callback.fetch_add(1)`: the registration number, and the new cell. -/
def takeId (c : Inner κ) : Nat × Inner κ :=
  (c.nextCallback, { c with nextCallback := c.nextCallback + 1 })

/-- The critical section of `on_cancel`. `true` means the reason was already set: nothing is
inserted and the caller runs the callback itself after unlocking. -/
def register (c : Inner κ) (id : Nat) (callback : κ) : Inner κ × Bool :=
  if c.reason = 0 then ({ c with callbacks := c.callbacks.insert id callback }, false)
  else (c, true)

/-- The critical section of dropping a `CancelRegistration`. -/
def unregister (c : Inner κ) (id : Nat) : Inner κ :=
  { c with callbacks := c.callbacks.remove id }

end Inner

end Protocol
end CodeSage
