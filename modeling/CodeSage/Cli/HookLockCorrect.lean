import CodeSage.Cli.HookLock

/-!
# CodeSage.Cli.HookLockCorrect

When the lock of the hook admits one run. `.reap` keeps two reapers apart, a live owner finds its own lock at the
path, and a pid that is read twice is the pid of the same lock; the empty text of a lock without a pid is not.
-/

namespace CodeSage
namespace Cli
namespace HookLock

open Lib
open CodeSage.Cli.StartLock (Pid)

section Pids

theorem decimal_ne_nil (n : Nat) : decimal n ≠ [] := Nat.toDigits_ne_nil

theorem pidText_decimal (lock : LockDir) (p : Pid) (h : lock.pidfile = some (decimal p.1)) :
    pidText (some lock) = decimal p.1 := by
  have hlength : (decimal p.1).length ≤ 32 :=
    (Nat.length_toDigits_le_iff (by decide) (by decide)).mpr (p.2.2.trans (by decide))
  rw [pidText, Option.bind_some, h, Option.getD_some, List.take_of_length_le hlength, List.rdropWhile_eq_self_iff]
  intro hne hnewline
  have hdigit := isDigit_decimal (List.getLast_mem hne)
  rw [beq_iff_eq] at hnewline
  rw [hnewline] at hdigit
  cases hdigit

theorem pidText_none (lock : LockDir) (h : lock.pidfile = none) : pidText (some lock) = [] := by
  rw [pidText, Option.bind_some, h]
  rfl

theorem hookAlive_decimal {s : State} {p : Pid} (h : s.alive p = true) : hookAlive s (decimal p.1) = true := by
  rw [hookAlive, parseDigits_decimal]
  simp only [dif_pos p.2, h, Bool.or_true]

end Pids

section Processes

variable {s : State} {p q : Pid} {pc : Pc} {i : Nat}

theorem setPc_self : (s.setPc p pc).pc p = pc := Function.update_self _ _ _

theorem setPc_other (h : q ≠ p) : (s.setPc p pc).pc q = s.pc q := Function.update_of_ne h _ _

theorem kill_alive : (s.kill p).alive q = true ↔ q ≠ p ∧ s.alive q = true := by
  change Function.update s.alive p false q = true ↔ _
  by_cases h : q = p
  · subst h
    simp
  · simp [h]

theorem owns_kill : Owns (s.kill p) q i ↔ q ≠ p ∧ Owns s q i := by
  unfold Owns
  rw [kill_alive, and_assoc]
  rfl

theorem reaps_kill : Reaps (s.kill p) q i ↔ q ≠ p ∧ Reaps s q i := by
  unfold Reaps
  rw [kill_alive, and_assoc]
  rfl

theorem owns_setPc : Owns (s.setPc p pc) q i ↔ if q = p then s.alive p = true ∧ pc.lock = some i else Owns s q i := by
  unfold Owns State.setPc
  by_cases hq : q = p
  · subst hq
    simp
  · simp [hq]

theorem reaps_setPc : Reaps (s.setPc p pc) q i ↔ if q = p then s.alive p = true ∧ pc.reap = some i else Reaps s q i := by
  unfold Reaps State.setPc
  by_cases hq : q = p
  · subst hq
    simp
  · simp [hq]

end Processes

/-- The lock at the path belongs to no live run and was there before the `decided`-th directory was made. -/
def Stale (s : State) (decided : Nat) (f : LockDir) : Prop := f.inode < decided ∧ ∀ q, ¬Owns s q f.inode

/-- What a run remembers is still true. -/
def Knows (s : State) : Pc → Prop
  | .claiming expected decided => decided ≤ s.inodes ∧ (expected ≠ [] →
      (∀ q, s.alive q = true → expected ≠ decimal q.1) ∧
      ∀ f, s.lock = some f → pidText s.lock = expected → Stale s decided f)
  | .rereading expected decided _ => decided ≤ s.inodes ∧ (expected ≠ [] →
      (∀ q, s.alive q = true → expected ≠ decimal q.1) ∧
      ∀ f, s.lock = some f → pidText s.lock = expected → Stale s decided f)
  | .moving decided _ => ∃ f, s.lock = some f ∧ Stale s decided f
  | .orphan _ found => found < s.inodes ∧ ∀ q, ¬Reaps s q found
  | _ => True

structure Inv (s : State) : Prop where
  lockFresh : ∀ f, s.lock = some f → f.inode < s.inodes
  reapFresh : ∀ r, s.reap = some r → r.inode < s.inodes
  /-- A live owner finds its own lock at the path, without a pid or with its own. -/
  owner : ∀ p i, Owns s p i → ∃ f, s.lock = some f ∧ f.inode = i ∧ f.creator = p ∧
    (pidText s.lock = [] ∨ pidText s.lock = decimal p.1)
  /-- A live reaper finds its own `.reap` at the path. -/
  reaper : ∀ p r, Reaps s p r → s.reap = some ⟨r, p⟩
  knows : ∀ p, s.alive p = true → Knows s (s.pc p)

theorem inv_initial {s : State} (h : Initial s) : Inv s := by
  refine ⟨h.lock, h.reap, fun p i howns => ?_, fun p r hreaps => ?_, fun p _ => ?_⟩
  · have hpc := howns.2
    rw [h.ready p] at hpc
    cases hpc
  · have hpc := hreaps.2
    rw [h.ready p] at hpc
    cases hpc
  · rw [h.ready p]
    trivial

/-- Fewer live processes, no new owner of an old directory. -/
structure Later (s s' : State) : Prop where
  inodes : s.inodes ≤ s'.inodes
  alive : ∀ q, s'.alive q = true → s.alive q = true
  owns : ∀ q i, i < s.inodes → Owns s' q i → Owns s q i
  reaps : ∀ q r, r < s.inodes → Reaps s' q r → Reaps s q r

theorem Stale.later {s s' : State} {decided : Nat} {f : LockDir} (h : Stale s decided f) (hlater : Later s s')
    (hfresh : f.inode < s.inodes) : Stale s' decided f :=
  ⟨h.1, fun q hq => h.2 q (hlater.owns q f.inode hfresh hq)⟩

section Knows

variable {s s' : State} {pc : Pc}

/-- What a run remembers of a lock that is still there. -/
theorem Knows.keep (h : Knows s pc) (hlater : Later s s') (hlock : s'.lock = s.lock)
    (hfresh : ∀ f, s.lock = some f → f.inode < s.inodes) : Knows s' pc := by
  have hexpected : ∀ {expected decided}, (decided ≤ s.inodes ∧ (expected ≠ [] →
      (∀ q, s.alive q = true → expected ≠ decimal q.1) ∧
      ∀ f, s.lock = some f → pidText s.lock = expected → Stale s decided f)) →
      decided ≤ s'.inodes ∧ (expected ≠ [] → (∀ q, s'.alive q = true → expected ≠ decimal q.1) ∧
      ∀ f, s'.lock = some f → pidText s'.lock = expected → Stale s' decided f) := by
    rintro expected decided ⟨hle, hread⟩
    refine ⟨hle.trans hlater.inodes, fun hne => ⟨fun q hq => (hread hne).1 q (hlater.alive q hq), ?_⟩⟩
    rw [hlock]
    exact fun f hf htext => ((hread hne).2 f hf htext).later hlater (hfresh f hf)
  cases pc with
  | claiming expected decided => exact hexpected h
  | rereading expected decided reap => exact hexpected h
  | moving decided reap =>
    obtain ⟨f, hf, hstale⟩ := h
    exact ⟨f, hlock.trans hf, hstale.later hlater (hfresh f hf)⟩
  | orphan lockpid found =>
    exact ⟨h.1.trans_le hlater.inodes, fun q hq => h.2 q (hlater.reaps q found h.1 hq)⟩
  | _ => trivial

/-- What a run remembers when the lock at the path has changed into one that carries no dead pid. -/
theorem Knows.replace (h : Knows s pc) (hlater : Later s s')
    (hnew : ∀ f, s'.lock = some f → pidText s'.lock = [] ∨ ∃ p, s.alive p = true ∧ pidText s'.lock = decimal p.1)
    (hpc : ∀ decided reap, pc ≠ .moving decided reap) : Knows s' pc := by
  have hexpected : ∀ {expected decided}, (decided ≤ s.inodes ∧ (expected ≠ [] →
      (∀ q, s.alive q = true → expected ≠ decimal q.1) ∧
      ∀ f, s.lock = some f → pidText s.lock = expected → Stale s decided f)) →
      decided ≤ s'.inodes ∧ (expected ≠ [] → (∀ q, s'.alive q = true → expected ≠ decimal q.1) ∧
      ∀ f, s'.lock = some f → pidText s'.lock = expected → Stale s' decided f) := by
    rintro expected decided ⟨hle, hread⟩
    refine ⟨hle.trans hlater.inodes, fun hne => ⟨fun q hq => (hread hne).1 q (hlater.alive q hq), ?_⟩⟩
    intro f hf htext
    rcases hnew f hf with hempty | ⟨p, hp, hpid⟩
    · exact absurd (htext.symm.trans hempty) hne
    · exact absurd (htext.symm.trans hpid) ((hread hne).1 p hp)
  cases pc with
  | claiming expected decided => exact hexpected h
  | rereading expected decided reap => exact hexpected h
  | moving decided reap => exact absurd rfl (hpc decided reap)
  | orphan lockpid found =>
    exact ⟨h.1.trans_le hlater.inodes, fun q hq => h.2 q (hlater.reaps q found h.1 hq)⟩
  | _ => trivial

end Knows

section Keeps

variable {s : State} {p : Pid} {pc : Pc}

theorem later_setPc (hlock : ∀ i, pc.lock = some i → i < s.inodes → (s.pc p).lock = some i)
    (hreap : ∀ r, pc.reap = some r → r < s.inodes → (s.pc p).reap = some r) : Later s (s.setPc p pc) where
  inodes := Nat.le_refl _
  alive _ h := h
  owns q i hi h := by
    rw [owns_setPc] at h
    split at h
    · rename_i hq
      subst hq
      exact ⟨h.1, hlock i h.2 hi⟩
    · exact h
  reaps q r hr h := by
    rw [reaps_setPc] at h
    split at h
    · rename_i hq
      subst hq
      exact ⟨h.1, hreap r h.2 hr⟩
    · exact h

/-- A command that makes and removes no directory. -/
theorem Inv.setPc (h : Inv s) (hlock : ∀ i, pc.lock = some i → (s.pc p).lock = some i)
    (hreap : ∀ r, pc.reap = some r → (s.pc p).reap = some r) (hknows : s.alive p = true → Knows s pc) :
    Inv (s.setPc p pc) := by
  have hlater := later_setPc (fun i hi _ => hlock i hi) (fun r hr _ => hreap r hr)
  have howns : ∀ q i, Owns (s.setPc p pc) q i → Owns s q i := by
    intro q i hq
    rw [owns_setPc] at hq
    split at hq
    · rename_i hqp
      subst hqp
      exact ⟨hq.1, hlock i hq.2⟩
    · exact hq
  have hreaps : ∀ q r, Reaps (s.setPc p pc) q r → Reaps s q r := by
    intro q r hq
    rw [reaps_setPc] at hq
    split at hq
    · rename_i hqp
      subst hqp
      exact ⟨hq.1, hreap r hq.2⟩
    · exact hq
  refine ⟨h.lockFresh, h.reapFresh, fun q i hq => h.owner q i (howns q i hq),
    fun q r hq => h.reaper q r (hreaps q r hq), fun q hq => ?_⟩
  by_cases hqp : q = p
  · subst hqp
    rw [setPc_self]
    exact (hknows hq).keep hlater rfl h.lockFresh
  · rw [setPc_other hqp]
    exact (h.knows q hq).keep hlater rfl h.lockFresh

theorem Inv.kill (h : Inv s) : Inv (s.kill p) := by
  have hlater : Later s (s.kill p) := ⟨Nat.le_refl _, fun q hq => (kill_alive.mp hq).2,
    fun q i _ hq => (owns_kill.mp hq).2, fun q r _ hq => (reaps_kill.mp hq).2⟩
  exact ⟨h.lockFresh, h.reapFresh, fun q i hq => h.owner q i (owns_kill.mp hq).2,
    fun q r hq => h.reaper q r (reaps_kill.mp hq).2,
    fun q hq => (h.knows q (kill_alive.mp hq).2).keep hlater rfl h.lockFresh⟩

/-- The lock goes away while no live run owns it and none is about to rename it. -/
theorem Inv.dropLock (h : Inv s) (hfree : ∀ q i, ¬Owns s q i)
    (hmoving : ∀ q decided reap, s.alive q = true → s.pc q ≠ .moving decided reap) : Inv (s.setLock none) := by
  have hlater : Later s (s.setLock none) :=
    ⟨Nat.le_refl _, fun q hq => hq, fun q i _ hq => hq, fun q r _ hq => hq⟩
  exact ⟨nofun, h.reapFresh, fun q i hq => absurd hq (hfree q i), h.reaper,
    fun q hq => (h.knows q hq).replace hlater nofun fun decided reap => hmoving q decided reap hq⟩

theorem Inv.dropReap (h : Inv s) (hfree : ∀ q r, ¬Reaps s q r) : Inv (s.setReap none) := by
  have hlater : Later s (s.setReap none) :=
    ⟨Nat.le_refl _, fun q hq => hq, fun q i _ hq => hq, fun q r _ hq => hq⟩
  exact ⟨h.lockFresh, nofun, h.owner, fun q r hq => absurd hq (hfree q r),
    fun q hq => (h.knows q hq).keep hlater rfl h.lockFresh⟩

theorem Inv.owner_unique (h : Inv s) {q : Pid} {i j : Nat} (hp : Owns s p i) (hq : Owns s q j) : q = p := by
  obtain ⟨f, hf, -, rfl, -⟩ := h.owner p i hp
  obtain ⟨f', hf', -, rfl, -⟩ := h.owner q j hq
  rw [Option.some_inj.mp (hf.symm.trans hf')]

theorem Inv.reaper_unique (h : Inv s) {q : Pid} {i j : Nat} (hp : Reaps s p i) (hq : Reaps s q j) : q = p :=
  congrArg ReapDir.creator (Option.some_inj.mp ((h.reaper q j hq).symm.trans (h.reaper p i hp)))

/-- A live owner keeps a reaper from renaming the lock away. -/
theorem Inv.not_moving (h : Inv s) {q : Pid} {i decided reap : Nat} (hp : Owns s p i) (hq : s.alive q = true) :
    s.pc q ≠ .moving decided reap := by
  intro hpc
  have hknows := h.knows q hq
  rw [hpc] at hknows
  obtain ⟨f, hf, hstale⟩ := hknows
  obtain ⟨f', hf', rfl, -⟩ := h.owner p i hp
  rw [Option.some_inj.mp (hf.symm.trans hf')] at hstale
  exact hstale.2 p hp

/-- The owner writes or removes its pid file. -/
theorem Inv.rewriteLock (h : Inv s) {i : Nat} (hp : Owns s p i) {contents : Option Text}
    (htext : pidText (s.lock.map fun f => { f with pidfile := contents }) = [] ∨
      pidText (s.lock.map fun f => { f with pidfile := contents }) = decimal p.1) :
    Inv (s.setLock (s.lock.map fun f => { f with pidfile := contents })) := by
  obtain ⟨f, hf, hinode, hcreator, -⟩ := h.owner p i hp
  have hlater : Later s (s.setLock (s.lock.map fun f => { f with pidfile := contents })) :=
    ⟨Nat.le_refl _, fun q hq => hq, fun q i _ hq => hq, fun q r _ hq => hq⟩
  rw [hf] at htext hlater ⊢
  refine ⟨?_, h.reapFresh, fun q j hq => ?_, h.reaper, fun q hq => ?_⟩
  · rintro f' ⟨⟩
    exact h.lockFresh f hf
  · obtain rfl := h.owner_unique hp hq
    obtain ⟨f', hf', rfl, -⟩ := h.owner q j hq
    have hsame : f.inode = f'.inode := congrArg LockDir.inode (Option.some_inj.mp (hf.symm.trans hf'))
    exact ⟨_, rfl, hsame, hcreator, htext⟩
  · refine (h.knows q hq).replace hlater (fun f' hf' => ?_) fun decided reap => h.not_moving hp hq
    rcases htext with hempty | hpid
    · exact .inl hempty
    · exact .inr ⟨p, hp.1, hpid⟩

/-- A lock is made where there is none. -/
theorem Inv.makeLock (h : Inv s) (hnone : s.lock = none) (halive : s.alive p = true) {pc : Nat → Pc}
    (hlock : (pc s.inodes).lock = some s.inodes)
    (hreap : ∀ r, (pc s.inodes).reap = some r → (s.pc p).reap = some r)
    (hknows : ∀ s', Knows s' (pc s.inodes)) : Inv (makeLock s p pc) := by
  have hfree : ∀ q i, ¬Owns s q i := by
    intro q i hq
    obtain ⟨f, hf, -⟩ := h.owner q i hq
    cases hnone.symm.trans hf
  have howns : ∀ q i, Owns (HookLock.makeLock s p pc) q i → q = p ∧ i = s.inodes := by
    intro q i hq
    change Owns (s.setPc p (pc s.inodes)) q i at hq
    rw [owns_setPc] at hq
    split at hq
    · rename_i hqp
      exact ⟨hqp, Option.some_inj.mp (hq.2.symm.trans hlock)⟩
    · exact absurd hq (hfree q i)
  have hreaps : ∀ q r, Reaps (HookLock.makeLock s p pc) q r → Reaps s q r := by
    intro q r hq
    change Reaps (s.setPc p (pc s.inodes)) q r at hq
    rw [reaps_setPc] at hq
    split at hq
    · rename_i hqp
      subst hqp
      exact ⟨hq.1, hreap r hq.2⟩
    · exact hq
  have hlater : Later s (HookLock.makeLock s p pc) := by
    refine ⟨Nat.le_succ _, fun q hq => hq, fun q i hi hq => ?_, fun q r _ hq => hreaps q r hq⟩
    exact absurd (howns q i hq).2 (Nat.ne_of_lt hi)
  refine ⟨?_, fun r hr => Nat.lt_succ_of_lt (h.reapFresh r hr), fun q i hq => ?_,
    fun q r hq => h.reaper q r (hreaps q r hq), fun q hq => ?_⟩
  · rintro f ⟨⟩
    exact Nat.lt_succ_self _
  · obtain ⟨rfl, rfl⟩ := howns q i hq
    exact ⟨_, rfl, rfl, rfl, .inl (pidText_none _ rfl)⟩
  · by_cases hqp : q = p
    · subst hqp
      have hpc : (HookLock.makeLock s q pc).pc q = pc s.inodes := setPc_self
      rw [hpc]
      exact hknows _
    · have hpc : (HookLock.makeLock s p pc).pc q = s.pc q := setPc_other hqp
      rw [hpc]
      refine (h.knows q hq).replace hlater (fun f _ => .inl (pidText_none _ rfl)) fun decided reap hren => ?_
      have hknows := h.knows q hq
      rw [hren] at hknows
      obtain ⟨f, hf, -⟩ := hknows
      cases hnone.symm.trans hf

/-- `.reap` is made where there is none. -/
theorem Inv.makeReap (h : Inv s) (hnone : s.reap = none) {pc : Nat → Pc}
    (hreap : ∀ r, (pc s.inodes).reap = some r → r = s.inodes)
    (hlock : (pc s.inodes).lock = none) (hknows : s.alive p = true → Knows s (pc s.inodes)) :
    Inv (makeReap s p pc) := by
  have hfree : ∀ q r, ¬Reaps s q r := fun q r hq => by cases hnone.symm.trans (h.reaper q r hq)
  have howns : ∀ q i, Owns (HookLock.makeReap s p pc) q i → Owns s q i := by
    intro q i hq
    change Owns (s.setPc p (pc s.inodes)) q i at hq
    rw [owns_setPc] at hq
    split at hq
    · rw [hlock] at hq
      cases hq.2
    · exact hq
  have hreaps : ∀ q r, Reaps (HookLock.makeReap s p pc) q r → q = p ∧ r = s.inodes := by
    intro q r hq
    change Reaps (s.setPc p (pc s.inodes)) q r at hq
    rw [reaps_setPc] at hq
    split at hq
    · rename_i hqp
      exact ⟨hqp, hreap r hq.2⟩
    · exact absurd hq (hfree q r)
  have hlater : Later s (HookLock.makeReap s p pc) := by
    refine ⟨Nat.le_succ _, fun q hq => hq, fun q i _ hq => howns q i hq, fun q r hr hq => ?_⟩
    exact absurd (hreaps q r hq).2 (Nat.ne_of_lt hr)
  refine ⟨fun f hf => Nat.lt_succ_of_lt (h.lockFresh f hf), ?_, fun q i hq => h.owner q i (howns q i hq),
    fun q r hq => ?_, fun q hq => ?_⟩
  · rintro r ⟨⟩
    exact Nat.lt_succ_self _
  · obtain ⟨rfl, rfl⟩ := hreaps q r hq
    rfl
  · by_cases hqp : q = p
    · subst hqp
      have hpc : (HookLock.makeReap s q pc).pc q = pc s.inodes := setPc_self
      rw [hpc]
      exact (hknows hq).keep hlater rfl h.lockFresh
    · have hpc : (HookLock.makeReap s p pc).pc q = s.pc q := setPc_other hqp
      rw [hpc]
      exact (h.knows q hq).keep hlater rfl h.lockFresh

/-- `hook_alive` says no: the pid it was asked about is that of no live run. -/
theorem expected_dead {expected : Text} (h : hookAlive s expected = false) (q : Pid) (hq : s.alive q = true) :
    expected ≠ decimal q.1 := by
  rintro rfl
  rw [hookAlive_decimal hq] at h
  cases h

/-- What a fire knows when it decides to reap. -/
theorem Inv.judge (h : Inv s) (lockpid : Text) (old : Bool) : Inv (judge s p lockpid old) := by
  unfold HookLock.judge
  split
  · rename_i hne
    split
    · exact h.kill
    · rename_i hdead
      refine h.setPc nofun nofun fun _ => ⟨Nat.le_refl _, fun _ => ⟨expected_dead (Bool.eq_false_iff.mpr hdead), ?_⟩⟩
      intro f hf htext
      refine ⟨h.lockFresh f hf, fun q hq => ?_⟩
      -- the lock of a live owner has its pid or none
      obtain ⟨f', -, -, -, hpid⟩ := h.owner q f.inode hq
      rcases hpid with hempty | hpid
      · exact hne (htext.symm.trans hempty)
      · exact expected_dead (Bool.eq_false_iff.mpr hdead) q hq.1 (htext.symm.trans hpid)
  · split
    · exact h.setPc nofun nofun fun _ => ⟨Nat.le_refl _, fun hne => absurd rfl hne⟩
    · exact h.kill

/-- The pid is read again and is the one expected: the lock is stale. -/
theorem Inv.reread (h : Inv s) {expected : Text} {decided reap : Nat} {answer : Bool}
    (halive : s.alive p = true) (hpc : s.pc p = .rereading expected decided reap)
    (htext : pidText s.lock = expected) (hok : undisturbed s (.go p answer) = true) :
    ∃ f, s.lock = some f ∧ Stale s decided f := by
  have hknows := h.knows p halive
  rw [hpc] at hknows
  cases expected with
  | cons c cs =>
    cases hf : s.lock with
    | none =>
      rw [hf] at htext
      cases htext
    | some f => exact ⟨f, rfl, (hknows.2 (List.cons_ne_nil c cs)).2 f hf htext⟩
  | nil =>
    simp only [undisturbed, hpc, htext, Option.any_eq_true] at hok
    obtain ⟨f, hf, hok⟩ := hok
    simp only [ne_eq, not_true_eq_false, decide_false, Bool.false_or, Bool.and_eq_true,
      decide_eq_true_eq, Bool.not_eq_true', decide_eq_false_iff_not] at hok
    refine ⟨f, hf, hok.1, fun q hq => hok.2 ?_⟩
    obtain ⟨f', hf', -, rfl, -⟩ := h.owner q f.inode hq
    rw [Option.some_inj.mp (hf.symm.trans hf')] at hq ⊢
    exact hq

/-- One command of a live run that meets the condition. -/
theorem inv_advance (h : Inv s) {answer : Bool} (halive : s.alive p = true)
    (hok : undisturbed s (.go p answer) = true) {s' : State} (hstep : advance s p answer = .next s') : Inv s' := by
  unfold advance at hstep
  have hknows := h.knows p halive
  cases hpc : s.pc p with
  | ready =>
    rw [hpc] at hstep
    cases hstep
    exact h.setPc nofun nofun fun _ => trivial
  | aging lockpid =>
    rw [hpc] at hstep
    simp only at hstep
    split at hstep
    · rename_i r hr
      split at hstep
      · split at hstep
        · cases hstep
        · rename_i hnot
          cases hstep
          refine h.setPc nofun nofun fun _ => ⟨h.reapFresh r hr, fun q hq => hnot ?_⟩
          have hcreator := h.reaper q r.inode hq
          rw [hr] at hcreator
          have hrq : r.creator = q := congrArg ReapDir.creator (Option.some_inj.mp hcreator)
          rwa [hrq]
      · cases hstep
        exact h.setPc nofun nofun fun _ => trivial
    · cases hstep
      exact h.setPc nofun nofun fun _ => trivial
  | orphan lockpid found =>
    rw [hpc] at hstep hknows
    cases hstep
    have hfree : ∀ q r, ¬Reaps s q r := by
      intro q r hq
      have hreap := h.reaper q r hq
      simp only [undisturbed, hpc, hreap, Option.all_some, decide_eq_true_eq] at hok
      exact hknows.2 q (hok ▸ hq)
    exact (h.dropReap hfree).setPc nofun nofun fun _ => trivial
  | entering lockpid =>
    rw [hpc] at hstep
    simp only at hstep
    split at hstep
    · rename_i hnone
      cases hstep
      exact h.makeLock (Option.isNone_iff_eq_none.mp hnone) halive rfl nofun fun _ => trivial
    · cases hstep
      exact h.setPc nofun nofun fun _ => trivial
  | judging lockpid =>
    rw [hpc] at hstep
    cases hstep
    exact h.judge lockpid answer
  | claiming expected decided =>
    rw [hpc] at hstep hknows
    simp only at hstep
    split at hstep
    · rename_i hnone
      cases hstep
      refine h.makeReap (Option.isNone_iff_eq_none.mp hnone) (fun r hr => ?_) rfl fun _ => hknows
      exact (Option.some_inj.mp hr).symm
    · cases hstep
      exact h.kill
  | rereading expected decided reap =>
    rw [hpc] at hstep
    simp only at hstep
    split at hstep
    · rename_i htext
      cases hstep
      exact h.setPc nofun (fun r hr => by rw [hpc]; exact hr) fun _ => h.reread halive hpc htext hok
    · cases hstep
      exact h.setPc nofun (fun r hr => by rw [hpc]; exact hr) fun _ => trivial
  | moving decided reap =>
    rw [hpc] at hstep hknows
    have hp : Reaps s p reap := ⟨halive, by rw [hpc]; rfl⟩
    simp only at hstep
    split at hstep
    · cases hstep
      obtain ⟨f, hf, hstale⟩ := hknows
      have hfree : ∀ q i, ¬Owns s q i := by
        intro q i hq
        obtain ⟨f', hf', rfl, -⟩ := h.owner q i hq
        rw [← Option.some_inj.mp (hf.symm.trans hf')] at hq
        exact hstale.2 q hq
      have hmoved : Inv (s.setPc p (.recreating reap)) :=
        h.setPc nofun (fun r hr => by rw [hpc]; exact hr) fun _ => trivial
      refine hmoved.dropLock (fun q i hq => ?_) fun q decided' reap' hq hmoving => ?_
      · rw [owns_setPc] at hq
        split at hq
        · cases hq.2
        · exact hfree q i hq
      · by_cases hqp : q = p
        · subst hqp
          rw [setPc_self] at hmoving
          cases hmoving
        · rw [setPc_other hqp] at hmoving
          exact hqp (h.reaper_unique (j := reap') hp ⟨hq, by rw [hmoving]; rfl⟩)
    · cases hstep
      exact h.setPc nofun (fun r hr => by rw [hpc]; exact hr) fun _ => trivial
  | recreating reap =>
    rw [hpc] at hstep
    simp only at hstep
    split at hstep
    · rename_i hnone
      cases hstep
      exact h.makeLock (Option.isNone_iff_eq_none.mp hnone) halive rfl (fun r hr => by rw [hpc]; exact hr)
        fun _ => trivial
    · cases hstep
      exact h.setPc nofun (fun r hr => by rw [hpc]; exact hr) fun _ => trivial
  | unreaping claimed reap =>
    rw [hpc] at hstep
    have hp : Reaps s p reap := ⟨halive, by rw [hpc]; rfl⟩
    cases claimed with
    | some lock =>
      cases hstep
      have hmoved : Inv (s.setPc p (.forking lock)) :=
        h.setPc (fun i hi => by rw [hpc]; exact hi) nofun fun _ => trivial
      refine hmoved.dropReap fun q r hq => ?_
      rw [reaps_setPc] at hq
      split at hq
      · cases hq.2
      · rename_i hqp
        exact hqp (h.reaper_unique hp hq)
    | none =>
      cases hstep
      refine (h.kill (p := p)).dropReap fun q r hq => ?_
      obtain ⟨hqp, hq⟩ := reaps_kill.mp hq
      exact hqp (h.reaper_unique hp hq)
  | forking lock =>
    rw [hpc] at hstep
    cases hstep
    cases answer with
    | true => exact h.setPc (fun i hi => by rw [hpc]; exact hi) nofun fun _ => trivial
    | false => exact h.setPc (fun i hi => by rw [hpc]; exact hi) nofun fun _ => trivial
  | writing lock =>
    rw [hpc] at hstep
    cases hstep
    have hp : Owns s p lock := ⟨halive, by rw [hpc]; rfl⟩
    obtain ⟨f, hf, -⟩ := h.owner p lock hp
    have hwritten : Inv (writePidfile s p answer) := by
      refine h.rewriteLock hp ?_
      rw [hf]
      cases answer with
      | true => exact .inr (pidText_decimal _ p rfl)
      | false => exact .inl rfl
    refine hwritten.setPc (fun i hi => ?_) nofun fun _ => trivial
    have hsame : (writePidfile s p answer).pc p = s.pc p := rfl
    rw [hsame, hpc]
    exact hi
  | running lock knowsPid =>
    rw [hpc] at hstep
    cases hstep
    unfold hookExit
    split
    · split
      · exact h.setPc (fun i hi => by rw [hpc]; exact hi) nofun fun _ => trivial
      · exact h.kill
    · split
      · exact h.kill
      · exact h.setPc (fun i hi => by rw [hpc]; exact hi) nofun fun _ => trivial
  | releasing lock =>
    rw [hpc] at hstep
    cases hstep
    have hp : Owns s p lock := ⟨halive, by rw [hpc]; rfl⟩
    obtain ⟨f, hf, -⟩ := h.owner p lock hp
    have hwritten : Inv (removePidfile s) := by
      refine h.rewriteLock hp (.inl ?_)
      rw [hf]
      exact pidText_none _ rfl
    refine hwritten.setPc (fun i hi => ?_) nofun fun _ => trivial
    have hsame : (removePidfile s).pc p = s.pc p := rfl
    rw [hsame, hpc]
    exact hi
  | removing lock =>
    rw [hpc] at hstep
    cases hstep
    have hp : Owns s p lock := ⟨halive, by rw [hpc]; rfl⟩
    have hkilled := h.kill (p := p)
    unfold rmdirLock
    split
    · split
      · refine hkilled.dropLock (fun q i hq => ?_) fun q decided reap hq => ?_
        · obtain ⟨hqp, hq⟩ := owns_kill.mp hq
          exact hqp (h.owner_unique hp hq)
        · exact h.not_moving hp (kill_alive.mp hq).2
      · exact hkilled
    · exact hkilled

theorem inv_step {s' : State} {a : Act} (h : Inv s) (hstep : guarded undisturbed step s a = .next s') : Inv s' := by
  obtain ⟨hok, hstep⟩ := guarded_eq_next.mp hstep
  cases a with
  | go p answer =>
    rw [step] at hstep
    split at hstep
    · rename_i halive
      exact inv_advance h halive hok hstep
    · cases hstep
  | die p =>
    cases hstep
    exact h.kill

end Keeps

section Runs

variable {s s₀ : State}

theorem lock_of_holds {pc : Pc} (h : pc.holds = true) : ∃ i, pc.lock = some i := by
  unfold Pc.holds at h
  split at h
  · exact Option.isSome_iff_exists.mp h
  all_goals first | exact ⟨_, rfl⟩ | cases h

theorem Inv.exclusive (h : Inv s) : Exclusive s := by
  intro p q hp hq hpc hqc
  obtain ⟨i, hi⟩ := lock_of_holds hpc
  obtain ⟨j, hj⟩ := lock_of_holds hqc
  exact h.owner_unique ⟨hq, hj⟩ ⟨hp, hi⟩

theorem alive_of_step {s' : State} {p : Pid} {answer : Bool} (h : step s (.go p answer) = .next s') :
    s.alive p = true := by
  rw [step] at h
  split at h
  · assumption
  · cases h

theorem Inv.not_renamesLater (h : Inv s) {s' : State} {a : Act} (hstep : step s a = .next s') : ¬RenamesLater s a := by
  cases a with
  | die p => exact id
  | go p answer =>
    rintro ⟨decided, reap, f, hpc, hf, hle⟩
    have hknows := h.knows p (alive_of_step hstep)
    rw [hpc] at hknows
    obtain ⟨f', hf', hstale⟩ := hknows
    rw [← Option.some_inj.mp (hf.symm.trans hf')] at hstale
    exact Nat.not_lt.mpr hle hstale.1

theorem Inv.not_releasesOther (h : Inv s) {s' : State} {a : Act} (hstep : step s a = .next s') :
    ¬ReleasesOther s a := by
  cases a with
  | die p => exact id
  | go p answer =>
    rintro ⟨hpc, f, q, hf, hne, hq⟩
    have hp : ∃ i, (s.pc p).lock = some i := by
      rcases hpc with ⟨i, hpc⟩ | ⟨i, hpc⟩
      · exact ⟨i, by rw [hpc]; rfl⟩
      · exact ⟨i, by rw [hpc]; rfl⟩
    obtain ⟨i, hi⟩ := hp
    exact hne (h.owner_unique ⟨alive_of_step hstep, hi⟩ hq)

/-- In every run in which no reaper of a lock without a pid and no remover of an old `.reap` is disturbed, one live
run holds the lock, and no step takes the lock or the pid file of another run. -/
theorem hook_lock_admits_one (h₀ : Initial s₀) (h : Steps (guarded undisturbed step) s₀ s) :
    Exclusive s ∧ ∀ a s', guarded undisturbed step s a = .next s' → ¬RenamesLater s a ∧ ¬ReleasesOther s a := by
  have hinv : Inv s := h.invariant (fun s a s' hinv hstep => inv_step hinv hstep) (inv_initial h₀)
  refine ⟨hinv.exclusive, fun a s' hstep => ?_⟩
  obtain ⟨-, hstep⟩ := guarded_eq_next.mp hstep
  exact ⟨hinv.not_renamesLater hstep, hinv.not_releasesOther hstep⟩

end Runs

section Traces

def dead : Pid := ⟨100, StartLock.pid_hundred⟩
def first : Pid := ⟨101, StartLock.pid_hundredOne⟩
def second : Pid := ⟨102, StartLock.pid_hundredTwo⟩

/-- An old lock without a pid. -/
def leftLock : State where
  lock := some ⟨0, dead, none⟩
  reap := none
  inodes := 1
  alive := fun p => p ≠ dead
  pc := fun _ => .ready

theorem initial_leftLock : Initial leftLock := by
  refine ⟨fun _ => rfl, ?_, nofun, fun p _ hpid => ?_⟩
  · rintro f ⟨⟩
    decide
  · exact decimal_ne_nil p.1 (hpid.symm.trans (pidText_none _ rfl))

/-- The fire finds the lock and that it is old. -/
def findsOld (p : Pid) : List Act := List.replicate 4 (.go p true)

/-- `claim_lock` up to the `mv`, and from the `mv` on. -/
def rereads (p : Pid) : List Act := List.replicate 2 (.go p true)
def claims (p : Pid) : List Act := List.replicate 3 (.go p true)

theorem hook_lock_admits_one_reaped : ∃ s, Steps (guarded undisturbed step) leftLock s ∧ s.pc first = .forking 2 ∧
    Exclusive s ∧ ∀ a s', guarded undisturbed step s a = .next s' → ¬RenamesLater s a ∧ ¬ReleasesOther s a := by
  obtain ⟨s, hsteps, hpc⟩ := steps_of_run (guarded undisturbed step) leftLock
    (findsOld first ++ rereads first ++ claims first) (fun s => s.pc first = .forking 2) (by decide)
  exact ⟨s, hsteps, of_decide_eq_true hpc, hook_lock_admits_one initial_leftLock hsteps⟩

/-- Both fires find the lock old. The first one reaps it and takes its own, which has no pid yet; the second one reads
the same empty pid, renames that lock away and holds one too. -/
theorem pidless_lock_reaped_twice : Initial leftLock ∧
    (∃ s s', Steps step leftLock s ∧ step s (.go second true) = .next s' ∧ RenamesLater s (.go second true)) ∧
    ∃ s, Steps step leftLock s ∧ ¬Exclusive s := by
  refine ⟨initial_leftLock, ?_, ?_⟩
  · obtain ⟨s, hsteps, htest⟩ := steps_of_run step leftLock
      (findsOld first ++ findsOld second ++ rereads first ++ claims first ++ rereads second)
      (fun s => s.alive second && s.pc second = .moving 1 3 && s.lock = some ⟨2, first, none⟩) (by decide)
    simp only [Bool.and_eq_true, decide_eq_true_eq] at htest
    obtain ⟨⟨halive, hpc⟩, hlock⟩ := htest
    have hstep : step s (.go second true) = .next ((s.setLock none).setPc second (.recreating 3)) := by
      rw [step, if_pos halive, advance, hpc, hlock]
      rfl
    exact ⟨s, _, hsteps, hstep, 1, 3, _, hpc, hlock, by decide⟩
  · obtain ⟨s, hsteps, htest⟩ := steps_of_run step leftLock
      (findsOld first ++ findsOld second ++ rereads first ++ claims first ++ rereads second ++ claims second)
      (fun s => s.alive first && s.alive second && (s.pc first).holds && (s.pc second).holds) (by decide)
    simp only [Bool.and_eq_true] at htest
    obtain ⟨⟨⟨hfirst, hsecond⟩, hpc⟩, hpc'⟩ := htest
    exact ⟨s, hsteps, fun hexclusive => absurd (hexclusive first second hfirst hsecond hpc hpc') (by decide)⟩

end Traces

end HookLock
end Cli
end CodeSage
