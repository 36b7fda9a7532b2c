import Mathlib.Algebra.Order.Ring.Int
import Mathlib.Data.List.AList
import CodeSage.Lib.Json
import CodeSage.Lib.Split
import CodeSage.Lib.Steps

/-!
# CodeSage.Cli.BriefGate

The gate in front of the briefs of a session and the ledger of their fires (`crates/cli/src/brief_gate.rs`), as
`cmd_brief` in `crates/cli/src/commands/query.rs` uses them. Every fire of the hook is one process. Each of its commands
on a file is one step; the fires of all sessions take their steps in any order, and a process may be killed between any
two of them. What the file system, the clock and `serde_json` answer is part of the step.

The ledger lies in a directory of its own, and a ledger that is not there is an empty one. The guards against symbolic
links and the modes of the directories are left out.
-/

namespace CodeSage
namespace Cli
namespace BriefGate

open Lib

section Gate

def SESSION_TOKEN_BUDGET : Nat := 1500

def PATH_COOLDOWN_SECS : Nat := 900

def CHARS_PER_TOKEN : Nat := 4

def FIRE_LOG_MAX_BYTES : Nat := 4 * 1024 * 1024

/-- `fsguard::MAX_STATE_BYTES` -/
def MAX_STATE_BYTES : Nat := 2 ^ 20

structure GateState where
  tokens : Nat
  served : AList (fun _ : Text => Nat)
  lastPath : AList (fun _ : Text => Nat)

/-- `GateState::default()` -/
def GateState.fresh : GateState := ⟨0, ∅, ∅⟩

/-- Equal but for the order in which the entries of the maps stand. -/
def GateState.Same (a b : GateState) : Prop :=
  a.tokens = b.tokens ∧ a.served.entries.Perm b.served.entries ∧ a.lastPath.entries.Perm b.lastPath.entries

instance instDecidableSame (a b : GateState) : Decidable (a.Same b) := inferInstanceAs (Decidable (_ ∧ _))

inductive Decision where
  | served
  | empty
  | repeated
  | cooldown
  | budget
  | unavailable
  | error
  deriving DecidableEq

def Decision.asStr : Decision → Text
  | .served => "served".toList
  | .empty => "empty".toList
  | .repeated => "repeat".toList
  | .cooldown => "cooldown".toList
  | .budget => "budget".toList
  | .unavailable => "unavailable".toList
  | .error => "error".toList

/-- FNV-1a -/
def digest (s : Text) : UInt64 :=
  (Utf8.bytes s).foldl (fun h b => (h ^^^ b.toUInt64) * 0x100000001b3) 0xcbf29ce484222325

/-- `{:x}` -/
def hex (n : UInt64) : Text := Nat.toDigits 16 n.toNat

/-- `payload.len().div_ceil(CHARS_PER_TOKEN)` -/
def costOf (payload : Text) : Nat := (Utf8.size payload + (CHARS_PER_TOKEN - 1)) / CHARS_PER_TOKEN

def keyOf (path payload : Text) : Text := path ++ Char.ofNat 0 :: hex (digest payload)

def decide (state : GateState) (path payload : Text) (now : Nat) : Decision × GateState :=
  let cost := costOf payload
  if SESSION_TOKEN_BUDGET < (state.tokens + cost) % 2 ^ 64 then (.budget, state)
  else
    let key := keyOf path payload
    if (state.served.lookup key).isSome then (.repeated, state)
    else if (state.lastPath.lookup path).any fun prev => now - prev < PATH_COOLDOWN_SECS then (.cooldown, state)
    else (.served,
      { tokens := (state.tokens + cost) % 2 ^ 64
        served := state.served.insert key now
        lastPath := state.lastPath.insert path now })

/-- `c.is_ascii_alphanumeric() || *c == '-' || *c == '_' || *c == '.'` -/
def isNameChar (c : Char) : Bool := c.isAlphanum || c == '-' || c == '_' || c == '.'

def sanitize (session : Text) : Text :=
  let cleaned := ((session.filter isNameChar).take 128).dropWhile (· == '.')
  if cleaned = [] then hex (digest session) else cleaned

/-- The name of the state file in the runtime directory. -/
def statePath (session : Text) : Text := "brief-".toList ++ sanitize session ++ ".json".toList

/-- `Path::with_extension`, of a file name that does not start with its last dot -/
def withExtension (name extension : Text) : Text :=
  match rsplitOnce '.' name with
  | some (stem, _) => stem ++ '.' :: extension
  | none => name ++ '.' :: extension

def lockPath (session : Text) : Text := withExtension (statePath session) "lock".toList

end Gate

section Ledger

def NEWLINE : UInt8 := 10

/-- A fire of the hook: what it was called with, and the rendered brief unless building it failed. -/
structure Fire where
  session : Text
  project : Text
  path : Text
  payload : Option Text
  small : ∀ text, payload = some text → Utf8.size text < 2 ^ 63

/-- The payload `log_fire` is given. -/
def Fire.logged (fire : Fire) : Text := fire.payload.getD []

/-- What `log_fire` writes, without the line break at its end. -/
def fireLine (now : Nat) (fire : Fire) (decision : Decision) : List UInt8 :=
  Utf8.bytes ("\x7b\"t\":".toList ++ decimal now ++ ",\"s\":\"".toList ++ sanitize fire.session ++ "\",\"p\":".toList ++
    Json.quote fire.project ++ ",\"f\":".toList ++ Json.quote fire.path ++ ",\"d\":\"".toList ++ decision.asStr ++ "\"".toList ++
    (if fire.logged = [] then []
      else ",\"h\":\"".toList ++ hex (digest fire.logged) ++ "\",\"tok\":".toList ++ decimal (costOf fire.logged)) ++ "\x7d".toList)

/-- The last byte of the ledger is no line break. -/
def isTorn (log : List UInt8) : Bool := log.getLast?.any (· ≠ NEWLINE)

/-- What `state_file::append_line` writes: the break that ends a torn line first. -/
def appended (torn : Bool) (line : List UInt8) : List UInt8 := (if torn then [NEWLINE] else []) ++ line ++ [NEWLINE]

end Ledger

section System

/-- The lock file of a session by its name, and the one of the ledger. -/
inductive LockFile where
  | gate (name : Text)
  | ledger
  deriving DecidableEq

/-- Where a fire is in `cmd_brief`. -/
inductive Pc where
  /-- the brief is built next -/
  | ready
  /-- `evaluate`, before it opens and tries the lock -/
  | opening
  /-- the lock is held, before the state file is read -/
  | reading
  /-- before the clock is read -/
  | deciding (state : GateState)
  /-- charged at `now` in memory, before the state file is replaced -/
  | replacing (now : Nat) (state : GateState)
  /-- `log_fire`, before its lock -/
  | logging (decision : Decision)
  /-- the ledger's lock is held, before `rotate_if_large` -/
  | rotating (decision : Decision)
  /-- `append_line`, before it reads the last byte of the ledger -/
  | peeking (decision : Decision)
  /-- `append_line`, before it writes -/
  | writing (decision : Decision) (torn : Bool)
  /-- the brief is printed next, if it is served -/
  | printing (decision : Decision)
  /-- ended, or killed -/
  | over

/-- The lock a fire holds there. -/
def Pc.lock (fire : Fire) : Pc → Option LockFile
  | .reading | .deciding _ | .replacing _ _ => some (.gate (lockPath fire.session))
  | .rotating _ | .peeking _ | .writing _ _ => some .ledger
  | _ => none

/-- How `state_file::replace` ends: before the rename, after it, or well. -/
inductive Replaced where
  | refused
  | unsynced
  | done
  deriving DecidableEq

/-- A step, with what the world answers. -/
inductive Act where
  | build
  | lock (opened : Bool)
  | read (readable : Bool)
  | decide (now : Nat)
  | replace (encoded : Text) (outcome : Replaced)
  | lockLog (opened : Bool)
  | rotate (renamed : Bool)
  | peek
  | write (now written : Nat)
  | print
  | kill
  deriving DecidableEq

/-- What the fires share. The last five fields are no part of the program: the fires charged and the clock they were
charged by, the fires whose brief was printed, how often the ledger was set aside, the whole lines of the ledger with the
generation they were written to, and the fires that could not be logged. -/
structure Shared where
  files : Text → Option Text
  locks : LockFile → Option Nat
  log : List UInt8
  older : List UInt8
  charged : List (Nat × Nat)
  printed : List Nat
  rotations : Nat
  lines : List (Nat × List UInt8)
  unlogged : List Nat

structure State where
  shared : Shared
  pcs : Nat → Pc

namespace Shared

def takeLock (sh : Shared) (p : Nat) (name : LockFile) : Shared :=
  { sh with locks := Function.update sh.locks name (some p) }

/-- A lock goes with the file handle. -/
def unlock (sh : Shared) (p : Nat) : Shared :=
  { sh with locks := fun name => if sh.locks name = some p then none else sh.locks name }

/-- `open_lockfile` makes the file if it is not there. -/
def openLock (sh : Shared) (name : Text) : Shared :=
  { sh with files := Function.update sh.files name (some ((sh.files name).getD [])) }

/-- The state file is replaced by one that charges the fire `p`. -/
def charge (sh : Shared) (p : Nat) (name encoded : Text) (now : Nat) : Shared :=
  { sh with
    files := Function.update sh.files name (some encoded)
    charged := sh.charged ++ [(p, now)] }

/-- `rotate_if_large` -/
def rotate (sh : Shared) (renamed : Bool) : Shared :=
  if FIRE_LOG_MAX_BYTES < sh.log.length ∧ renamed then { sh with log := [], older := sh.log, rotations := sh.rotations + 1 }
  else sh

def unlog (sh : Shared) (p : Nat) : Shared := { sh with unlogged := sh.unlogged ++ [p] }

/-- The first `written` bytes of the line of the fire `p` reach the ledger. -/
def write (sh : Shared) (p : Nat) (torn : Bool) (line : List UInt8) (written : Nat) : Shared :=
  if (appended torn line).length ≤ written then
    { sh with log := sh.log ++ appended torn line, lines := sh.lines ++ [(sh.rotations, line)] }
  else { sh.unlog p with log := sh.log ++ (appended torn line).take written }

def print (sh : Shared) (p : Nat) : Shared := { sh with printed := sh.printed ++ [p] }

end Shared

variable (decode : Text → Option GateState)

/-- The state in a state file, if it can be read. A missing file is a fresh state. -/
def currentState (files : Text → Option Text) (name : Text) : Option GateState :=
  match files name with
  | none => some .fresh
  | some raw => if Utf8.size raw ≤ MAX_STATE_BYTES then decode raw else none

/-- One step of the fire `p`; `none` if it is not at that step, or waits. -/
def advance (p : Nat) (fire : Fire) (sh : Shared) : Pc → Act → Option (Shared × Pc)
  | _, .kill => some (sh.unlock p, .over)
  | .ready, .build =>
    match fire.payload with
    | none => some (sh, .logging .error)
    | some [] => some (sh, .logging .empty)
    | some _ => some (sh, .opening)
  | .opening, .lock opened =>
    if !opened then some (sh, .logging .unavailable)
    else if sh.locks (.gate (lockPath fire.session)) = none then
      some ((sh.openLock (lockPath fire.session)).takeLock p (.gate (lockPath fire.session)), .reading)
    else some (sh.openLock (lockPath fire.session), .logging .unavailable)
  | .reading, .read readable =>
    match if readable then currentState decode sh.files (statePath fire.session) else none with
    | some state => some (sh, .deciding state)
    | none => some (sh.unlock p, .logging .unavailable)
  | .deciding state, .decide now =>
    match decide state fire.path fire.logged now with
    | (.served, after) => some (sh, .replacing now after)
    | (decision, _) => some (sh.unlock p, .logging decision)
  | .replacing _ _, .replace _ .refused => some (sh.unlock p, .logging .unavailable)
  | .replacing now after, .replace encoded outcome =>
    -- the text is one that reads back as the state
    if (decode encoded).any fun state => state.Same after then
      some ((sh.charge p (statePath fire.session) encoded now).unlock p,
        .logging (if outcome = .done then .served else .unavailable))
    else none
  | .logging decision, .lockLog opened =>
    if !opened then some (sh.unlog p, .printing decision)
    else if sh.locks .ledger = none then some (sh.takeLock p .ledger, .rotating decision)
    else none
  | .rotating decision, .rotate renamed => some (sh.rotate renamed, .peeking decision)
  | .peeking decision, .peek => some (sh, .writing decision (isTorn sh.log))
  | .writing decision torn, .write now written =>
    some ((sh.write p torn (fireLine now fire decision) written).unlock p, .printing decision)
  | .printing decision, .print => some (if decision = .served then sh.print p else sh, .over)
  | _, _ => none

def step (fires : Nat → Fire) (s : State) (label : Nat × Act) : Outcome State :=
  match advance decode label.1 (fires label.1) s.shared (s.pcs label.1) label.2 with
  | some (shared, pc) => .next ⟨shared, Function.update s.pcs label.1 pc⟩
  | none => .disabled

/-- What lies in the two directories when the first fire starts. -/
structure Disk where
  files : Text → Option Text
  log : List UInt8
  older : List UInt8
  within : ∀ name raw state, files name = some raw → decode raw = some state → state.tokens ≤ SESSION_TOKEN_BUDGET

def start (disk : Disk decode) : State where
  pcs _ := .ready
  shared :=
    { files := disk.files
      locks := fun _ => none
      log := disk.log
      older := disk.older
      charged := []
      printed := []
      rotations := 0
      lines := (disk.log.splitOn NEWLINE).dropLast.map fun line => (0, line)
      unlogged := [] }

end System

end BriefGate
end Cli
end CodeSage
