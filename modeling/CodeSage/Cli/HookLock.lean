import Mathlib.Algebra.Order.Ring.Int
import CodeSage.Cli.StartLock

/-!
# CodeSage.Cli.HookLock

The lock of the git hook (`generate_post_commit_hook_body` in `crates/cli/src/commands/hooks.rs`): each fire of
the hook and the worker it forks are one process here, since the pid in the lock is the worker's. Every command
on the lock directory, on `.reap` and on the pid file is one step, and any process may be killed at any step. A
directory is known by the number of directories made before it; all commands name their directory by path.
The guards against symbolic links are left out.
-/

namespace CodeSage
namespace Cli
namespace HookLock

open Lib
open CodeSage.Cli.StartLock (Pid)

structure LockDir where
  inode : Nat
  creator : Pid
  pidfile : Option Text
  deriving DecidableEq

structure ReapDir where
  inode : Nat
  creator : Pid
  deriving DecidableEq

/-- Where a fire is in the script. `lockpid` is what it read first, `decided` how many directories had been made
when it decided to reap, `lock` and `reap` are the directories it has made. -/
inductive Pc where
  /-- before the pid file is read -/
  | ready
  /-- before `find "$lockdir.reap" -mmin` -/
  | aging (lockpid : Text)
  /-- an old `.reap` was found, before its `rmdir` -/
  | orphan (lockpid : Text) (found : Nat)
  /-- before `mkdir "$lockdir"` -/
  | entering (lockpid : Text)
  /-- the lock is taken: before `hook_alive` or `find "$lockdir" -mmin` -/
  | judging (lockpid : Text)
  /-- `claim_lock`, before `mkdir "$lockdir.reap"` -/
  | claiming (expected : Text) (decided : Nat)
  /-- `claim_lock`, before the pid is read again -/
  | rereading (expected : Text) (decided reap : Nat)
  /-- `claim_lock`, before `mv` -/
  | moving (decided reap : Nat)
  /-- `claim_lock`, before `mkdir "$lockdir"` -/
  | recreating (reap : Nat)
  /-- `claim_lock`, before `rmdir "$lockdir.reap"` -/
  | unreaping (claimed : Option Nat) (reap : Nat)
  /-- the lock is this run's, before the worker is forked -/
  | forking (lock : Nat)
  /-- the worker before it writes its pid -/
  | writing (lock : Nat)
  /-- the passes; `knowsPid` if the worker found out its pid -/
  | running (lock : Nat) (knowsPid : Bool)
  /-- `hook_exit`, before `rm -f "$pidfile"` -/
  | releasing (lock : Nat)
  /-- `hook_exit`, before `rmdir "$lockdir"` -/
  | removing (lock : Nat)
  deriving DecidableEq

/-- The lock directory a run has made and not given up. -/
def Pc.lock : Pc → Option Nat
  | .unreaping claimed _ => claimed
  | .forking lock => some lock
  | .writing lock => some lock
  | .running lock _ => some lock
  | .releasing lock => some lock
  | .removing lock => some lock
  | _ => none

/-- The `.reap` directory of a run inside `claim_lock`. -/
def Pc.reap : Pc → Option Nat
  | .rereading _ _ reap => some reap
  | .moving _ reap => some reap
  | .recreating reap => some reap
  | .unreaping _ reap => some reap
  | _ => none

/-- From the acquisition to `hook_exit`. -/
def Pc.holds : Pc → Bool
  | .unreaping claimed _ => claimed.isSome
  | .forking _ => true
  | .writing _ => true
  | .running _ _ => true
  | _ => false

structure State where
  lock : Option LockDir
  reap : Option ReapDir
  inodes : Nat
  alive : Pid → Bool
  pc : Pid → Pc

def State.setPc (s : State) (p : Pid) (pc : Pc) : State := { s with pc := Function.update s.pc p pc }

def State.setLock (s : State) (lock : Option LockDir) : State := { s with lock := lock }

def State.setReap (s : State) (reap : Option ReapDir) : State := { s with reap := reap }

/-- The process ends, or is killed. -/
def State.kill (s : State) (p : Pid) : State := { s with alive := Function.update s.alive p false }

/-- A live run that has made this lock directory and not given it up. -/
def Owns (s : State) (p : Pid) (lock : Nat) : Prop := s.alive p = true ∧ (s.pc p).lock = some lock

/-- A live run inside `claim_lock` that has made this `.reap` directory. -/
def Reaps (s : State) (p : Pid) (reap : Nat) : Prop := s.alive p = true ∧ (s.pc p).reap = some reap

instance (s : State) (p : Pid) (lock : Nat) : Decidable (Owns s p lock) := inferInstanceAs (Decidable (_ ∧ _))

instance (s : State) (p : Pid) (reap : Nat) : Decidable (Reaps s p reap) := inferInstanceAs (Decidable (_ ∧ _))

/-- `$(head -c 32 "$pidfile" 2>/dev/null)`: trailing newlines go, a missing file is empty. -/
def pidText (lock : Option LockDir) : Text :=
  (((lock.bind LockDir.pidfile).getD []).take 32).rdropWhile (· == '\n')

/-- `case $lockpid in ''|*[!0-9]*) lockpid="" ;; esac` -/
def digitsOrEmpty (text : Text) : Text := if text.all Char.isDigit then text else []

/-- `hook_alive`, exact: `kill -0 0` always succeeds, and no process has a pid out of range. -/
def hookAlive (s : State) (lockpid : Text) : Bool :=
  match parseDigits lockpid with
  | none => false
  | some n => n = 0 || (if h : 0 < n ∧ n < 2 ^ 31 then s.alive ⟨n, h⟩ else false)

/-- `mkdir "$lockdir"` by a run that goes on as `pc` with its new lock. -/
def makeLock (s : State) (p : Pid) (pc : Nat → Pc) : State :=
  { (s.setPc p (pc s.inodes)).setLock (some ⟨s.inodes, p, none⟩) with inodes := s.inodes + 1 }

def makeReap (s : State) (p : Pid) (pc : Nat → Pc) : State :=
  { (s.setPc p (pc s.inodes)).setReap (some ⟨s.inodes, p⟩) with inodes := s.inodes + 1 }

/-- `rmdir "$lockdir"`, which fails unless the directory is empty. -/
def rmdirLock (s : State) : State :=
  match s.lock with
  | some f => if f.pidfile.isNone then s.setLock none else s
  | none => s

/-- `printf '%s' "$pid" >"$pidfile"`; a write that fails has made the file. -/
def writePidfile (s : State) (p : Pid) (ok : Bool) : State :=
  s.setLock (s.lock.map fun f => { f with pidfile := some (if ok then decimal p.1 else []) })

def removePidfile (s : State) : State := s.setLock (s.lock.map fun f => { f with pidfile := none })

/-- The decision behind a failed `mkdir`; `old` is the answer of `find "$lockdir" -mmin`. -/
def judge (s : State) (p : Pid) (lockpid : Text) (old : Bool) : State :=
  if lockpid ≠ [] then
    if hookAlive s lockpid then s.kill p else s.setPc p (.claiming lockpid s.inodes)
  else if s.lock.isSome && old then s.setPc p (.claiming [] s.inodes)
  else s.kill p

/-- What a run does once it is in `hook_exit`. -/
def hookExit (s : State) (p : Pid) (lock : Nat) (knowsPid : Bool) : State :=
  if knowsPid then
    if pidText s.lock = decimal p.1 then s.setPc p (.releasing lock) else s.kill p
  else if (s.lock.bind LockDir.pidfile).isSome then s.kill p
  else s.setPc p (.removing lock)

/-- The next command of a run. `answer` is what is open about it: whether a directory is old, whether the worker
finds out its pid, whether a write succeeds. No process stays in `claim_lock` until its `.reap` is old. -/
def advance (s : State) (p : Pid) (answer : Bool) : Outcome State :=
  match s.pc p with
  | .ready => .next (s.setPc p (.aging (digitsOrEmpty (pidText s.lock))))
  | .aging lockpid =>
    match s.reap with
    | some r =>
      if answer then
        if Reaps s r.creator r.inode then .disabled else .next (s.setPc p (.orphan lockpid r.inode))
      else .next (s.setPc p (.entering lockpid))
    | none => .next (s.setPc p (.entering lockpid))
  | .orphan lockpid _ => .next ((s.setReap none).setPc p (.entering lockpid))
  | .entering lockpid =>
    if s.lock.isNone then .next (makeLock s p .forking) else .next (s.setPc p (.judging lockpid))
  | .judging lockpid => .next (judge s p lockpid answer)
  | .claiming expected decided =>
    if s.reap.isNone then .next (makeReap s p (.rereading expected decided)) else .next (s.kill p)
  | .rereading expected decided reap =>
    if pidText s.lock = expected then .next (s.setPc p (.moving decided reap))
    else .next (s.setPc p (.unreaping none reap))
  | .moving _ reap =>
    if s.lock.isSome then .next ((s.setLock none).setPc p (.recreating reap))
    else .next (s.setPc p (.unreaping none reap))
  | .recreating reap =>
    if s.lock.isNone then .next (makeLock s p fun lock => .unreaping (some lock) reap)
    else .next (s.setPc p (.unreaping none reap))
  | .unreaping (some lock) _ => .next ((s.setReap none).setPc p (.forking lock))
  | .unreaping none _ => .next ((s.setReap none).kill p)
  | .forking lock => .next (s.setPc p (if answer then .writing lock else .running lock false))
  | .writing lock => .next ((writePidfile s p answer).setPc p (.running lock true))
  | .running lock knowsPid => .next (hookExit s p lock knowsPid)
  | .releasing lock => .next ((removePidfile s).setPc p (.removing lock))
  | .removing _ => .next ((rmdirLock s).kill p)

inductive Act where
  | go (p : Pid) (answer : Bool)
  | die (p : Pid)
  deriving DecidableEq

def step (s : State) : Act → Outcome State
  | .go p answer => if s.alive p then advance s p answer else .disabled
  | .die p => .next (s.kill p)

/-- No run has begun; a lock or a `.reap` may be left by a dead run, and no live run has the pid in that lock. -/
structure Initial (s : State) : Prop where
  ready : ∀ p, s.pc p = .ready
  lock : ∀ f, s.lock = some f → f.inode < s.inodes
  reap : ∀ r, s.reap = some r → r.inode < s.inodes
  unused : ∀ p, s.alive p = true → pidText s.lock ≠ decimal p.1

/-- At most one live run holds the lock. -/
def Exclusive (s : State) : Prop := ∀ p q, s.alive p = true → s.alive q = true →
  (s.pc p).holds = true → (s.pc q).holds = true → p = q

/-- The run renames away a lock that was taken after it decided to reap. -/
def RenamesLater (s : State) : Act → Prop
  | .go p _ => ∃ decided reap f, s.pc p = .moving decided reap ∧ s.lock = some f ∧ decided ≤ f.inode
  | .die _ => False

/-- `hook_exit` of the run removes the pid file or the lock directory of another live one. -/
def ReleasesOther (s : State) : Act → Prop
  | .go p _ => ((∃ lock, s.pc p = .releasing lock) ∨ ∃ lock, s.pc p = .removing lock) ∧
      ∃ f q, s.lock = some f ∧ q ≠ p ∧ Owns s q f.inode
  | .die _ => False

/-- A fire that reaps a lock without a pid finds, when it reads the pid again, the lock whose age it has judged,
and no live run owns it; and the `.reap` it removes for its age is the one it has found old. -/
def undisturbed (s : State) : Act → Bool
  | .go p _ =>
    match s.pc p with
    | .rereading [] decided _ =>
      s.lock.any fun f => pidText s.lock ≠ [] || (f.inode < decided && !decide (Owns s f.creator f.inode))
    | .orphan _ found => s.reap.all fun r => r.inode = found
    | _ => true
  | .die _ => true

end HookLock
end Cli
end CodeSage
