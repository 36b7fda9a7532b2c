import Mathlib.Algebra.Order.Ring.Int
import CodeSage.Lib.Steps
import CodeSage.Lib.Text
import Mathlib.Logic.Function.Basic

/-!
# CodeSage.Cli.StartLock

The start lock of the daemon (`StartLock`, `ensure_daemon` and `clean_stale_lock` in `crates/cli/src/daemon.rs`):
any number of shims, each file operation one step, any shim killed at any step. A lock file is known by its
inode, the number of files created before it; `remove_file` takes whatever file is at the path.
-/

namespace CodeSage
namespace Cli
namespace StartLock

open Lib

/-- A process id as `kill` takes it. -/
abbrev Pid := { n : Nat // 0 < n ∧ n < 2 ^ 31 }

theorem pid_hundred : 0 < 100 ∧ 100 < 2 ^ 31 := by decide

theorem pid_hundredOne : 0 < 101 ∧ 101 < 2 ^ 31 := by decide

theorem pid_hundredTwo : 0 < 102 ∧ 102 < 2 ^ 31 := by decide

structure LockFile where
  inode : Nat
  creator : Pid
  contents : Text
  deriving DecidableEq

/-- Where a shim is in `ensure_daemon`; `attempt` counts the rounds of its loop. -/
inductive Pc where
  | idle
  | acquiring (attempt : Nat)
  /-- The file is created, `writeln!` is next. -/
  | writing (attempt inode : Nat)
  /-- Holds its `StartLock`: removes a stale socket, spawns the daemon, waits for it. -/
  | starting (attempt inode : Nat)
  /-- `wait_for_socket` -/
  | waiting (attempt : Nat)
  /-- `clean_stale_lock`, before `read_to_string` -/
  | reading (attempt : Nat)
  /-- `clean_stale_lock`, before `pid_alive` -/
  | checking (attempt : Nat) (pid : Pid) (inode : Nat)
  /-- `clean_stale_lock`, before `remove_file` -/
  | removing (attempt inode : Nat)
  deriving DecidableEq

/-- The lock file a shim has created and not dropped. -/
def Pc.owned : Pc → Option Nat
  | .writing _ inode => some inode
  | .starting _ inode => some inode
  | _ => none

structure State where
  /-- What is at the path. -/
  file : Option LockFile
  inodes : Nat
  alive : Pid → Bool
  pc : Pid → Pc

def State.setPc (s : State) (p : Pid) (pc : Pc) : State := { s with pc := Function.update s.pc p pc }

def State.setFile (s : State) (file : Option LockFile) : State := { s with file := file }

/-- A live shim that has created this file and not dropped it. -/
def Owns (s : State) (p : Pid) (inode : Nat) : Prop := s.alive p = true ∧ (s.pc p).owned = some inode

instance (s : State) (p : Pid) (inode : Nat) : Decidable (Owns s p inode) := inferInstanceAs (Decidable (_ ∧ _))

/-- What `writeln!` writes. -/
def pidLine (p : Pid) : Text := decimal p.1 ++ ['\n']

/-- `contents.trim().parse()`, if it is positive -/
def parsePid (contents : Text) : Option Pid :=
  (parseI32 (trim contents)).bind fun p =>
    if h : 0 < p.toNat ∧ p.toNat < 2 ^ 31 then some ⟨p.toNat, h⟩ else none

/-- The next round of `for attempt in 0..3`, or the end of the loop. -/
def again (attempt : Nat) : Pc := if attempt + 1 < 3 then .acquiring (attempt + 1) else .idle

/-- `remove_file`; its failure is ignored. -/
def remove (s : State) (ok : Bool) : State := if ok then s.setFile none else s

/-- `StartLock::try_acquire` up to the creation of the file. -/
def tryAcquire (s : State) (p : Pid) (attempt : Nat) : State :=
  match s.file with
  | none => { (s.setPc p (.writing attempt s.inodes)).setFile (some ⟨s.inodes, p, []⟩) with inodes := s.inodes + 1 }
  | some _ => s.setPc p (.waiting attempt)

/-- The pid goes into the file that was created, wherever that file is by now. -/
def writePid (s : State) (p : Pid) (inode : Nat) : State :=
  s.setFile (s.file.map fun f => if f.inode = inode then { f with contents := pidLine p } else f)

/-- `clean_stale_lock` up to the reading of the file. -/
def readLock (s : State) (p : Pid) (attempt : Nat) : State :=
  match s.file with
  | none => s.setPc p (again attempt)
  | some f =>
    match parsePid f.contents with
    | some pid => s.setPc p (.checking attempt pid f.inode)
    | none => s.setPc p (.removing attempt f.inode)

/-- The next operation of a shim; `ok` is how it went, where that is open: a connection, a write, a start. -/
def advance (s : State) (p : Pid) (ok : Bool) : State :=
  match s.pc p with
  | .idle => if ok then s else s.setPc p (.acquiring 0)
  | .acquiring attempt => if ok then tryAcquire s p attempt else s.setPc p .idle
  | .writing attempt inode =>
    if ok then (writePid s p inode).setPc p (.starting attempt inode) else s.setPc p .idle
  | .starting _ _ => (remove s ok).setPc p .idle
  | .waiting attempt => if ok then s.setPc p .idle else s.setPc p (.reading attempt)
  | .reading attempt => if ok then readLock s p attempt else s.setPc p .idle
  | .checking attempt pid inode =>
    if s.alive pid then s.setPc p (again attempt) else s.setPc p (.removing attempt inode)
  | .removing attempt _ => (remove s ok).setPc p (again attempt)

inductive Act where
  | go (p : Pid) (ok : Bool)
  | die (p : Pid)
  deriving DecidableEq

def step (s : State) : Act → Outcome State
  | .go p ok => if s.alive p then .next (advance s p ok) else .disabled
  | .die p => .next { s with alive := Function.update s.alive p false }

/-- Any live and dead processes, none of them in `ensure_daemon`, and any file a dead one has left. -/
structure Initial (s : State) : Prop where
  idle : ∀ p, s.pc p = .idle
  leftover : ∀ f, s.file = some f → s.alive f.creator = false ∧ f.inode < s.inodes

/-- At most one live process holds a `StartLock`. -/
def Exclusive (s : State) : Prop := ∀ p q k l i j, s.alive p = true → s.alive q = true →
  s.pc p = .starting k i → s.pc q = .starting l j → p = q

/-- The process unlinks the lock file of another live one. -/
def UnlinksHeld (s : State) : Act → Prop
  | .go p ok => ok = true ∧ ((∃ k i, s.pc p = .starting k i) ∨ ∃ k i, s.pc p = .removing k i) ∧
      ∃ f q, s.file = some f ∧ q ≠ p ∧ Owns s q f.inode
  | .die _ => False

/-- `clean_stale_lock` reads no lock file whose creator is about to write its pid, and removes the very file
it has read. -/
def undisturbed (s : State) : Act → Bool
  | .go p _ =>
    match s.file, s.pc p with
    | some f, .reading _ => (parsePid f.contents).isSome || !decide (Owns s f.creator f.inode)
    | some f, .removing _ inode => f.inode = inode
    | _, _ => true
  | .die _ => true

end StartLock
end Cli
end CodeSage
