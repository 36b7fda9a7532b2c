import CodeSage.Cli.StartLock

/-!
# CodeSage.Cli.StartLockCorrect

When the start lock is exclusive. A live owner finds its own file at the path, so two owners are one. The
cleaner judges a file by its contents and removes by path: what it found in a file says something about the
owners of that file only.
-/

namespace CodeSage
namespace Cli
namespace StartLock

open Lib

theorem parsePid_pidLine (p : Pid) : parsePid (pidLine p) = some p := by
  rw [parsePid, pidLine, trim_decimal, parseI32, parseSigned_decimal p.2.2, Option.bind_some]
  exact dif_pos p.2

theorem parsePid_nil : parsePid [] = none := by decide

section Owners

variable {s : State} {p q : Pid} {pc : Pc} {i : Nat}

theorem owns_setPc : Owns (s.setPc p pc) q i ↔ if q = p then s.alive p = true ∧ pc.owned = some i else Owns s q i := by
  unfold Owns State.setPc
  by_cases hq : q = p
  · subst hq
    simp
  · simp [hq]

/-- A process that owns nothing after its step leaves the others as they were. -/
theorem owns_of_setPc (hpc : pc.owned = none) (h : Owns (s.setPc p pc) q i) : q ≠ p ∧ Owns s q i := by
  rw [owns_setPc] at h
  split at h
  · rw [hpc] at h
    cases h.2
  · rename_i hq
    exact ⟨hq, h⟩

theorem owned_again (attempt : Nat) : (again attempt).owned = none := by
  unfold again
  split <;> rfl

end Owners

/-- What the file of an owner holds. -/
def Pc.contents (p : Pid) : Pc → Text
  | .starting _ _ => pidLine p
  | _ => []

/-- Only an owner past its write has left a pid. -/
theorem pid_of_contents {p pid : Pid} {pc : Pc} (h : parsePid (pc.contents p) = some pid) : p = pid := by
  unfold Pc.contents at h
  split at h
  · rw [parsePid_pidLine] at h
    exact Option.some_inj.mp h
  · rw [parsePid_nil] at h
    cases h

/-- What holds as long as no cleaner is disturbed. -/
structure Inv (s : State) : Prop where
  fresh : ∀ f, s.file = some f → f.inode < s.inodes
  /-- An owner finds its file at the path, with its pid once it is written. -/
  owner : ∀ p i, Owns s p i → s.file = some ⟨i, p, (s.pc p).contents p⟩
  /-- A file that named a process belongs to no other live one. -/
  checking : ∀ p k pid i, s.pc p = .checking k pid i → i < s.inodes ∧ ∀ q, Owns s q i → q = pid
  /-- A file found stale belongs to no live process. -/
  removing : ∀ p k i, s.pc p = .removing k i → i < s.inodes ∧ ∀ q, ¬Owns s q i

theorem inv_initial {s : State} (h : Initial s) : Inv s := by
  have hidle : ∀ p i, ¬Owns s p i := by
    intro p i howns
    have := howns.2
    rw [h.idle p] at this
    cases this
  refine ⟨fun f hf => (h.leftover f hf).2, fun p i howns => absurd howns (hidle p i), ?_, ?_⟩
  · intro p k pid i hpc
    rw [h.idle p] at hpc
    cases hpc
  · intro p k i hpc
    rw [h.idle p] at hpc
    cases hpc

section Keeps

variable {s : State} {p : Pid} {ok : Bool}

/-- A step that only moves its process on: what it has read is true of the owners, and it owns nothing new. -/
theorem Inv.setPc (h : Inv s) {pc : Pc} (hpc : pc.owned = none)
    (hchecking : ∀ k pid i, pc = .checking k pid i → i < s.inodes ∧ ∀ q, Owns s q i → q = pid)
    (hremoving : ∀ k i, pc = .removing k i → i < s.inodes ∧ ∀ q, ¬Owns s q i) : Inv (s.setPc p pc) := by
  have hother : ∀ {q}, q ≠ p → (s.setPc p pc).pc q = s.pc q := fun hq => Function.update_of_ne hq _ _
  have hself : (s.setPc p pc).pc p = pc := Function.update_self _ _ _
  refine ⟨h.fresh, fun q i howns => ?_, fun q k pid i hq => ?_, fun q k i hq => ?_⟩
  · obtain ⟨hne, howns⟩ := owns_of_setPc hpc howns
    rw [hother hne]
    exact h.owner q i howns
  · have hread : i < s.inodes ∧ ∀ q, Owns s q i → q = pid := by
      by_cases hqp : q = p
      · subst hqp
        exact hchecking k pid i (hself.symm.trans hq)
      · exact h.checking q k pid i ((hother hqp).symm.trans hq)
    exact ⟨hread.1, fun r howns => hread.2 r (owns_of_setPc hpc howns).2⟩
  · have hread : i < s.inodes ∧ ∀ q, ¬Owns s q i := by
      by_cases hqp : q = p
      · subst hqp
        exact hremoving k i (hself.symm.trans hq)
      · exact h.removing q k i ((hother hqp).symm.trans hq)
    exact ⟨hread.1, fun r howns => hread.2 r (owns_of_setPc hpc howns).2⟩

theorem Inv.setPc_again (h : Inv s) (attempt : Nat) : Inv (s.setPc p (again attempt)) := by
  refine h.setPc (owned_again attempt) (fun k pid i hpc => ?_) (fun k i hpc => ?_)
  · unfold again at hpc
    split at hpc <;> cases hpc
  · unfold again at hpc
    split at hpc <;> cases hpc

/-- The file may go when no live process owns it. -/
theorem Inv.remove (h : Inv s) (hfree : ∀ q f, s.file = some f → ¬Owns s q f.inode) : Inv (remove s ok) := by
  cases ok with
  | false => exact h
  | true =>
    refine ⟨nofun, fun q i howns => ?_, h.checking, h.removing⟩
    exact absurd howns (hfree q _ (h.owner q i howns))

/-- The owner of the file at the path is the one process that owns it. -/
theorem Inv.owner_unique (h : Inv s) {q : Pid} {i j : Nat} (hp : Owns s p i) (hq : Owns s q j) : q = p := by
  have hf := (h.owner q j hq).symm.trans (h.owner p i hp)
  exact congrArg LockFile.creator (Option.some_inj.mp hf)

theorem Inv.tryAcquire (h : Inv s) (halive : s.alive p = true) (attempt : Nat) : Inv (tryAcquire s p attempt) := by
  unfold StartLock.tryAcquire
  split
  · rename_i hnone
    -- nobody owns anything when there is no file
    have hfree : ∀ q i, ¬Owns s q i := by
      intro q i howns
      cases hnone.symm.trans (h.owner q i howns)
    have howns : ∀ q i, Owns ((s.setPc p (.writing attempt s.inodes)).setFile (some ⟨s.inodes, p, []⟩)) q i →
        q = p ∧ i = s.inodes := by
      intro q i hq
      change Owns (s.setPc p (.writing attempt s.inodes)) q i at hq
      rw [owns_setPc] at hq
      split at hq
      · rename_i hqp
        exact ⟨hqp, (Option.some_inj.mp hq.2).symm⟩
      · exact absurd hq (hfree q i)
    have hpc : ∀ q, Function.update s.pc p (.writing attempt s.inodes) q =
        if q = p then .writing attempt s.inodes else s.pc q := fun q => Function.update_apply _ _ _ _
    refine ⟨?_, fun q i hq => ?_, fun q k pid i hq => ?_, fun q k i hq => ?_⟩
    · rintro f ⟨⟩
      exact Nat.lt_succ_self _
    · obtain ⟨rfl, rfl⟩ := howns q i hq
      have hcontents := congrArg (Pc.contents q) (hpc q)
      rw [if_pos rfl] at hcontents
      exact congrArg (fun contents => some (LockFile.mk s.inodes q contents)) hcontents.symm
    · have hq := (hpc q).symm.trans hq
      split at hq
      · cases hq
      · have hlt := (h.checking q k pid i hq).1
        refine ⟨Nat.lt_succ_of_lt hlt, fun r hr => ?_⟩
        exact absurd (howns r i hr).2 (Nat.ne_of_lt hlt)
    · have hq := (hpc q).symm.trans hq
      split at hq
      · cases hq
      · have hlt := (h.removing q k i hq).1
        exact ⟨Nat.lt_succ_of_lt hlt, fun r hr => absurd (howns r i hr).2 (Nat.ne_of_lt hlt)⟩
  · exact h.setPc rfl nofun nofun

/-- The pid is written: the owner stays the owner. -/
theorem Inv.writePid (h : Inv s) {attempt i : Nat} (halive : s.alive p = true) (hpc : s.pc p = .writing attempt i) :
    Inv ((writePid s p i).setPc p (.starting attempt i)) := by
  have hp : Owns s p i := ⟨halive, by rw [hpc]; rfl⟩
  have hf := h.owner p i hp
  have howns : ∀ q j, Owns ((StartLock.writePid s p i).setPc p (.starting attempt i)) q j ↔ Owns s q j := by
    intro q j
    rw [owns_setPc]
    split
    · rename_i hq
      subst hq
      unfold Owns
      rw [hpc]
      rfl
    · rfl
  have hfile : (StartLock.writePid s p i).file = some ⟨i, p, pidLine p⟩ := by
    change s.file.map _ = _
    rw [hf, Option.map_some, if_pos rfl]
  have hother : ∀ q, q ≠ p → ((StartLock.writePid s p i).setPc p (.starting attempt i)).pc q = s.pc q :=
    fun q hq => Function.update_of_ne hq _ _
  have hself : ((StartLock.writePid s p i).setPc p (.starting attempt i)).pc p = .starting attempt i :=
    Function.update_self _ _ _
  refine ⟨fun f' hf' => ?_, fun q j hq => ?_, fun q k pid j hq => ?_, fun q k j hq => ?_⟩
  · have hf' := hfile.symm.trans hf'
    cases hf'
    have := h.fresh _ hf
    exact this
  · rw [howns] at hq
    obtain rfl := h.owner_unique hp hq
    have hinode := congrArg LockFile.inode (Option.some_inj.mp ((h.owner q j hq).symm.trans hf))
    change j = i at hinode
    rw [hinode, hself]
    exact hfile
  · have hq : s.pc q = .checking k pid j := by
      by_cases hqp : q = p
      · subst hqp
        cases hself.symm.trans hq
      · exact (hother q hqp).symm.trans hq
    obtain ⟨hlt, hread⟩ := h.checking q k pid j hq
    exact ⟨hlt, fun r hr => hread r ((howns r j).mp hr)⟩
  · have hq : s.pc q = .removing k j := by
      by_cases hqp : q = p
      · subst hqp
        cases hself.symm.trans hq
      · exact (hother q hqp).symm.trans hq
    obtain ⟨hlt, hread⟩ := h.removing q k j hq
    exact ⟨hlt, fun r hr => hread r ((howns r j).mp hr)⟩

/-- What an undisturbed reader makes of the file is true of its owners. -/
theorem Inv.readLock (h : Inv s) {attempt : Nat} (hpc : s.pc p = .reading attempt)
    (hok : undisturbed s (.go p ok) = true) : Inv (readLock s p attempt) := by
  unfold StartLock.readLock
  cases hf : s.file with
  | none => exact h.setPc_again attempt
  | some f =>
    have hfresh := h.fresh f hf
    have howner : ∀ q, Owns s q f.inode → f.creator = q ∧ f.contents = (s.pc q).contents q := by
      intro q hq
      have heq := Option.some_inj.mp (hf.symm.trans (h.owner q f.inode hq))
      exact ⟨congrArg LockFile.creator heq, congrArg LockFile.contents heq⟩
    simp only
    cases hparse : parsePid f.contents with
    | some pid =>
      refine h.setPc rfl ?_ nofun
      rintro k pid' i ⟨⟩
      refine ⟨hfresh, fun q hq => ?_⟩
      rw [(howner q hq).2] at hparse
      exact pid_of_contents hparse
    | none =>
      refine h.setPc rfl nofun ?_
      rintro k i ⟨⟩
      refine ⟨hfresh, fun q hq => ?_⟩
      simp only [undisturbed, hf, hpc, hparse, Option.isSome_none, Bool.false_or, Bool.not_eq_true',
        decide_eq_false_iff_not] at hok
      rw [(howner q hq).1] at hok
      exact hok hq

/-- One step of a live process that meets the condition. -/
theorem inv_advance (h : Inv s) (halive : s.alive p = true) (hok : undisturbed s (.go p ok) = true) :
    Inv (advance s p ok) := by
  unfold advance
  cases hpc : s.pc p with
  | idle =>
    simp only
    split
    · exact h
    · exact h.setPc rfl nofun nofun
  | acquiring attempt =>
    simp only
    split
    · exact h.tryAcquire halive attempt
    · exact h.setPc rfl nofun nofun
  | writing attempt inode =>
    simp only
    split
    · exact h.writePid halive hpc
    · exact h.setPc rfl nofun nofun
  | starting attempt inode =>
    -- the file at the path is its own: with it gone nobody owns one
    have hp : Owns s p inode := ⟨halive, by rw [hpc]; rfl⟩
    cases ok with
    | false => exact h.setPc rfl nofun nofun
    | true =>
      have hleft : ∀ q i, ¬Owns ((s.setFile none).setPc p .idle) q i := by
        intro q i hq
        obtain ⟨hne, hq⟩ := owns_of_setPc rfl hq
        exact hne (h.owner_unique hp hq)
      have hread : ∀ q, ((s.setFile none).setPc p .idle).pc q = if q = p then .idle else s.pc q :=
        fun q => Function.update_apply _ _ _ _
      refine ⟨nofun, fun q i hq => absurd hq (hleft q i), fun q k pid i hq => ?_, fun q k i hq => ?_⟩
      · have hq := (hread q).symm.trans hq
        split at hq
        · cases hq
        · exact ⟨(h.checking q k pid i hq).1, fun r hr => absurd hr (hleft r i)⟩
      · have hq := (hread q).symm.trans hq
        split at hq
        · cases hq
        · exact ⟨(h.removing q k i hq).1, fun r hr => hleft r i hr⟩
  | waiting attempt =>
    simp only
    split
    · exact h.setPc rfl nofun nofun
    · exact h.setPc rfl nofun nofun
  | reading attempt =>
    simp only
    split
    · exact h.readLock hpc hok
    · exact h.setPc rfl nofun nofun
  | checking attempt pid inode =>
    simp only
    split
    · exact h.setPc_again attempt
    · rename_i hdead
      refine h.setPc rfl nofun ?_
      rintro k i ⟨⟩
      obtain ⟨hlt, hread⟩ := h.checking p attempt pid inode hpc
      refine ⟨hlt, fun q hq => hdead ?_⟩
      rw [← hread q hq]
      exact hq.1
  | removing attempt inode =>
    refine Inv.setPc_again (h.remove fun q f hf hq => ?_) attempt
    obtain rfl : f.inode = inode := by simpa [undisturbed, hf, hpc] using hok
    exact (h.removing p attempt f.inode hpc).2 q hq

/-- A death takes owners away. -/
theorem inv_die (h : Inv s) : Inv { s with alive := Function.update s.alive p false } := by
  have howns : ∀ q i, Owns { s with alive := Function.update s.alive p false } q i → Owns s q i := by
    rintro q i ⟨halive, hpc⟩
    refine ⟨?_, hpc⟩
    have halive : Function.update s.alive p false q = true := halive
    by_cases hq : q = p
    · subst hq
      rw [Function.update_self] at halive
      cases halive
    · rwa [Function.update_of_ne hq] at halive
  refine ⟨h.fresh, fun q i hq => h.owner q i (howns q i hq), fun q k pid i hq => ?_, fun q k i hq => ?_⟩
  · obtain ⟨hlt, hread⟩ := h.checking q k pid i hq
    exact ⟨hlt, fun r hr => hread r (howns r i hr)⟩
  · obtain ⟨hlt, hread⟩ := h.removing q k i hq
    exact ⟨hlt, fun r hr => hread r (howns r i hr)⟩

theorem inv_step {s' : State} {a : Act} (h : Inv s) (hstep : guarded undisturbed step s a = .next s') : Inv s' := by
  obtain ⟨hok, hstep⟩ := guarded_eq_next.mp hstep
  cases a with
  | go p ok =>
    rw [step] at hstep
    split at hstep
    · rename_i halive
      cases hstep
      exact inv_advance h halive hok
    · cases hstep
  | die p =>
    cases hstep
    exact inv_die h

end Keeps

section Runs

variable {s s₀ : State}

theorem Inv.exclusive (h : Inv s) : Exclusive s := by
  intro p q k l i j hp hq hpc hqc
  exact h.owner_unique (i := j) (j := i) ⟨hq, by rw [hqc]; rfl⟩ ⟨hp, by rw [hpc]; rfl⟩

/-- Neither the drop of a `StartLock` nor an undisturbed cleaner takes the file of another live process. -/
theorem Inv.not_unlinksHeld (h : Inv s) {s' : State} {a : Act}
    (hstep : guarded undisturbed step s a = .next s') : ¬UnlinksHeld s a := by
  obtain ⟨hok, hstep⟩ := guarded_eq_next.mp hstep
  cases a with
  | die p => exact id
  | go p ok =>
    rintro ⟨-, hpc, f, q, hf, hne, hq⟩
    rw [step] at hstep
    split at hstep
    · rename_i halive
      rcases hpc with ⟨k, i, hpc⟩ | ⟨k, i, hpc⟩
      · exact hne (h.owner_unique (i := i) ⟨halive, by rw [hpc]; rfl⟩ hq)
      · obtain rfl : f.inode = i := by simpa [undisturbed, hf, hpc] using hok
        exact (h.removing p k f.inode hpc).2 q hq
    · cases hstep

/-- In every run in which no cleaner is disturbed the lock has one live holder, and no step takes the lock file
of another live process. -/
theorem start_lock_exclusive (h₀ : Initial s₀) (h : Steps (guarded undisturbed step) s₀ s) :
    Exclusive s ∧ ∀ a s', guarded undisturbed step s a = .next s' → ¬UnlinksHeld s a := by
  have hinv : Inv s := h.invariant (fun s a s' hinv hstep => inv_step hinv hstep) (inv_initial h₀)
  exact ⟨hinv.exclusive, fun a s' hstep => hinv.not_unlinksHeld hstep⟩

end Runs

section Traces

def deadHolder : Pid := ⟨100, pid_hundred⟩
def first : Pid := ⟨101, pid_hundredOne⟩
def second : Pid := ⟨102, pid_hundredTwo⟩

/-- A shim was killed while it held the lock. -/
def leftLock : State where
  file := some ⟨0, deadHolder, pidLine deadHolder⟩
  inodes := 1
  alive := fun p => p ≠ deadHolder
  pc := fun _ => .idle

theorem initial_leftLock : Initial leftLock := by
  refine ⟨fun _ => rfl, ?_⟩
  rintro f ⟨⟩
  exact ⟨by decide, by decide⟩

/-- A shim that does not reach the daemon, finds the lock, waits in vain and finds the holder dead. -/
def findsDead (p : Pid) : List Act := [.go p false, .go p true, .go p false, .go p true, .go p true]

/-- A shim that removes the lock it found and takes it. -/
def takesOver (p : Pid) : List Act := [.go p true, .go p true, .go p true]

/-- One shim after the other: the second one finds the first one starting. -/
theorem start_lock_exclusive_reclaimed : ∃ s, Steps (guarded undisturbed step) leftLock s ∧
    s.pc first = .starting 1 1 ∧ Exclusive s ∧
      ∀ a s', guarded undisturbed step s a = .next s' → ¬UnlinksHeld s a := by
  obtain ⟨s, hsteps, hpc⟩ := steps_of_run (guarded undisturbed step) leftLock
    (findsDead first ++ takesOver first ++ findsDead second) (fun s => s.pc first = .starting 1 1) (by decide)
  exact ⟨s, hsteps, of_decide_eq_true hpc, start_lock_exclusive initial_leftLock hsteps⟩

/-- Both find the holder dead; the first takes the lock over, and the second removes that lock, not the one it has
read. Two shims hold a `StartLock`. -/
theorem stale_unlink_of_live_lock : Initial leftLock ∧
    (∃ s s', Steps step leftLock s ∧ step s (.go second true) = .next s' ∧ UnlinksHeld s (.go second true)) ∧
    ∃ s, Steps step leftLock s ∧ ¬Exclusive s := by
  refine ⟨initial_leftLock, ?_, ?_⟩
  · obtain ⟨s, hsteps, htest⟩ := steps_of_run step leftLock
      (findsDead first ++ findsDead second ++ takesOver first)
      (fun s => s.alive second && s.pc second = .removing 0 0 && s.file.any fun f => Owns s first f.inode)
      (by decide)
    simp only [Bool.and_eq_true, decide_eq_true_eq, Option.any_eq_true] at htest
    obtain ⟨⟨halive, hpc⟩, f, hf, howns⟩ := htest
    exact ⟨s, _, hsteps, if_pos halive, rfl, .inr ⟨0, 0, hpc⟩, f, first, hf, by decide, howns⟩
  · obtain ⟨s, hsteps, htest⟩ := steps_of_run step leftLock
      (findsDead first ++ findsDead second ++ takesOver first ++ takesOver second)
      (fun s => s.alive first && s.alive second && s.pc first = .starting 1 1 && s.pc second = .starting 1 2)
      (by decide)
    simp only [Bool.and_eq_true, decide_eq_true_eq] at htest
    obtain ⟨⟨⟨hfirst, hsecond⟩, hpc⟩, hpc'⟩ := htest
    refine ⟨s, hsteps, fun hexclusive => ?_⟩
    exact absurd (hexclusive first second 1 1 1 2 hfirst hsecond hpc hpc') (by decide)

end Traces

end StartLock
end Cli
end CodeSage
