import CodeSage.Mcp.Coordinator

/-!
# CodeSage.Mcp.Effects

What one step of the coordinator system can do. Most steps are `Quiet`: a thread moves on without
changing the mutex state, the leases or the holder; it may stop a phase, notify, set a stop reason
or give back its control. The rest are the critical sections, one constructor of `Effect` each.

`step_effect` is the only place where `step` is taken apart; every invariant of the system is
proved from `Effect`.
-/

namespace CodeSage
namespace Mcp

open Protocol

/-- Inside `acquire_execution`, which has borrowed its control. -/
@[simp] def Pc.acquiring : Pc → Bool
  | .acquireCheck _ | .register | .registerLock | .callback | .callbackNotify | .enqueue | .enable
  | .loopCheck _ | .lock | .admitting | .asleep | .timeout _ | .dropPending _ | .unregister _ => true
  | _ => false

/-- Owning a `PendingLease`. -/
@[simp] def Pc.waiting : Pc → Bool
  | .enable | .loopCheck _ | .lock | .admitting | .asleep | .timeout _ | .dropPending _ => true
  | _ => false

def Cancel.announcing : Cancel → Bool
  | .notify _ => true
  | _ => false

def Check.announcing : Check → Bool
  | .cancel f => f.announcing
  | _ => false

/-- In a cancel callback, after the exchange of the phase: the next step is `notify_waiters`. -/
def Pc.announcing : Pc → Bool
  | .callbackNotify => true
  | .acquireCheck k | .loopCheck k | .requestCheck k => k.announcing
  | .timeout f | .cancel f | .shutdownCancel _ _ f _ => f.announcing
  | _ => false

namespace Sys

variable (s : Sys) (n m c d : Nat) (pc : Pc)

@[simp] theorem become_state : (s.become n pc).state = s.state := rfl
@[simp] theorem become_holder : (s.become n pc).holder = s.holder := rfl
@[simp] theorem become_controls : (s.become n pc).controls = s.controls := rfl
@[simp] theorem become_created : (s.become n pc).created = s.created := rfl
@[simp] theorem become_phases : (s.become n pc).phases = s.phases := rfl
@[simp] theorem become_leases : (s.become n pc).leases = s.leases := rfl
@[simp] theorem become_notified : (s.become n pc).notified = s.notified := rfl
@[simp] theorem become_self : (s.become n pc).threads n = { s.threads n with pc := pc } :=
  Function.update_self ..

theorem become_other (h : m ≠ n) : (s.become n pc).threads m = s.threads m :=
  Function.update_of_ne h ..

@[simp] theorem notify_state : s.notify.state = s.state := rfl
@[simp] theorem notify_holder : s.notify.holder = s.holder := rfl
@[simp] theorem notify_controls : s.notify.controls = s.controls := rfl
@[simp] theorem notify_created : s.notify.created = s.created := rfl
@[simp] theorem notify_phases : s.notify.phases = s.phases := rfl
@[simp] theorem notify_threads : s.notify.threads = s.threads := rfl
@[simp] theorem notify_leases : s.notify.leases = s.leases := rfl
@[simp] theorem notify_notified : s.notify.notified = s.notified + 1 := rfl

theorem release_borrows (h : m ≠ n) (hm : m ∈ (s.controls d).borrows) :
    m ∈ ((s.release c n).controls d).borrows := by
  simp only [release, setControl]
  by_cases hd : d = c
  · subst hd
    rw [Function.update_self]
    exact (List.mem_erase_of_ne h).mpr hm
  · rw [Function.update_of_ne hd]; exact hm

theorem release_unused (h : (s.controls d).borrows = []) :
    ((s.release c n).controls d).borrows = [] := by
  simp only [release, setControl]
  by_cases hd : d = c
  · subst hd; rw [Function.update_self]; simp [h]
  · rw [Function.update_of_ne hd]; exact h

theorem release_handles : ((s.release c n).controls d).handles = (s.controls d).handles := by
  simp only [release, setControl]
  by_cases hd : d = c
  · subst hd; rw [Function.update_self]
  · rw [Function.update_of_ne hd]

theorem release_inner : ((s.release c n).controls d).inner = (s.controls d).inner := by
  simp only [release, setControl]
  by_cases hd : d = c
  · subst hd; rw [Function.update_self]
  · rw [Function.update_of_ne hd]

theorem borrow_borrows :
    ((s.borrow c n).controls d).borrows =
      if d = c then n :: (s.controls d).borrows else (s.controls d).borrows := by
  simp only [borrow, setControl]
  split
  · rename_i hd; subst hd; rw [Function.update_self]
  · rename_i hd; rw [Function.update_of_ne hd]

theorem borrow_handles : ((s.borrow c n).controls d).handles = (s.controls d).handles := by
  simp only [borrow, setControl]
  by_cases hd : d = c
  · subst hd; rw [Function.update_self]
  · rw [Function.update_of_ne hd]

theorem borrow_inner : ((s.borrow c n).controls d).inner = (s.controls d).inner := by
  simp only [borrow, setControl]
  by_cases hd : d = c
  · subst hd; rw [Function.update_self]
  · rw [Function.update_of_ne hd]

end Sys

/-- A change made to the controls, phases and notifications outside the mutex, by a thread whose
next step is a `notify_waiters` (`before`, `after`: in the state before, in the state after). -/
structure Outside (s s' : Sys) (before after : Bool) : Prop where
  state : s'.state = s.state
  holder : s'.holder = s.holder
  leases : s'.leases = s.leases
  created : s'.created = s.created
  threads : s'.threads = s.threads
  borrows : ∀ c, (s'.controls c).borrows = (s.controls c).borrows
  handles : ∀ c, (s'.controls c).handles = (s.controls c).handles
  reason : ∀ c, (s.controls c).inner.reason ≠ 0 →
    (s'.controls c).inner.reason = (s.controls c).inner.reason
  phases : s'.phases = s.phases ∨
    ∃ m, s.phases m = .pending ∧ s'.phases = Function.update s.phases m .stopped ∧ after = true
  notified : s'.notified = s.notified ∨ s'.notified = s.notified + 1
  announced : before = true → s'.notified = s.notified + 1

namespace Outside

variable {s s' : Sys}

theorem refl (s : Sys) (after : Bool) : Outside s s false after :=
  ⟨rfl, rfl, rfl, rfl, rfl, fun _ => rfl, fun _ => rfl, fun _ _ => rfl, .inl rfl, .inl rfl,
    fun h => nomatch h⟩

theorem setInner (s : Sys) (c : Nat) (i : Inner Nat) (after : Bool)
    (h : (s.controls c).inner.reason ≠ 0 → i.reason = (s.controls c).inner.reason) :
    Outside s (s.setInner c i) false after := by
  have hother : ∀ d, d ≠ c → (s.setInner c i).controls d = s.controls d := fun d hd => by
    simp only [Sys.setInner, Sys.setControl]
    rw [Function.update_of_ne hd]
  have hself : (s.setInner c i).controls c = { s.controls c with inner := i } := by
    simp only [Sys.setInner, Sys.setControl]
    rw [Function.update_self]
  refine ⟨rfl, rfl, rfl, rfl, rfl, ?_, ?_, ?_, .inl rfl, .inl rfl, fun h => nomatch h⟩
  · intro d
    by_cases hd : d = c
    · subst hd; rw [hself]
    · rw [hother d hd]
  · intro d
    by_cases hd : d = c
    · subst hd; rw [hself]
    · rw [hother d hd]
  · intro d hr
    by_cases hd : d = c
    · subst hd; rw [hself]; exact h hr
    · rw [hother d hd]

theorem stopPhase (s : Sys) (m : Nat) : Outside s (s.stopPhase m) false true := by
  simp only [Sys.stopPhase]
  split
  · rename_i h
    exact ⟨rfl, rfl, rfl, rfl, rfl, fun _ => rfl, fun _ => rfl, fun _ _ => rfl,
      .inr ⟨m, h, rfl, rfl⟩, .inl rfl, fun h => nomatch h⟩
  · exact refl s true

theorem notify (s : Sys) (before after : Bool) : Outside s s.notify before after :=
  ⟨rfl, rfl, rfl, rfl, rfl, fun _ => rfl, fun _ => rfl, fun _ _ => rfl, .inl rfl, .inr rfl,
    fun _ => rfl⟩

theorem cancelStep {c : Nat} {f : Cancel} {o : Option Cancel} (h : s.cancelStep c f = (s', o)) :
    Outside s s' f.announcing (o.any Cancel.announcing) := by
  cases f with
  | exchange r =>
    simp only [Sys.cancelStep, Inner.exchange] at h
    by_cases hr : (s.controls c).inner.reason = 0
    · rw [if_pos hr] at h
      cases h
      exact setInner s c _ _ fun hn => absurd hr hn
    · rw [if_neg hr] at h
      cases h
      exact refl _ _
  | lock => cases h; exact refl _ _
  | callback todo =>
    cases todo with
    | nil => cases h; exact refl _ _
    | cons m todo => cases h; exact stopPhase s m
  | notify todo => cases h; exact notify _ _ _

theorem checkStep {c : Nat} {k : Check} {o : Check ⊕ Option StopReason}
    (h : s.checkStep c k = (s', o)) :
    Outside s s' k.announcing (o.elim Check.announcing fun _ => false) := by
  cases k with
  | deadline =>
    simp only [Sys.checkStep] at h
    split at h
    · cases h; exact refl _ _
    · cases h; exact refl _ _
  | cancel f =>
    simp only [Sys.checkStep] at h
    split at h
    · rename_i s1 f' hf
      cases h
      exact cancelStep hf
    · rename_i s1 hf
      cases h
      exact cancelStep hf
  | load => cases h; exact refl _ _

end Outside

/-- Thread `n` moves and the mutex state stays as it is. -/
structure Quiet (l : WorkLimits) (s s' : Sys) (n : Nat) : Prop where
  state : s'.state = s.state
  leases : s'.leases = s.leases
  holder : s'.holder = s.holder
  created : s'.created = s.created
  others : ∀ m, m ≠ n → s'.threads m = s.threads m
  call : ∃ g i pc, s'.threads n = { s.threads n with registration := i, gen := g, pc := pc } ∧
    (g = (s.threads n).gen ∨ g = s.notified)
  waiting : (s'.threads n).pc.waiting = (s.threads n).pc.waiting
  acquiring : (s'.threads n).pc.acquiring = true → (s.threads n).pc.acquiring = true
  notAdmitting : (s.threads n).pc ≠ .admitting
  notAdmitting' : (s'.threads n).pc ≠ .admitting
  asleep : (s'.threads n).pc = .asleep → s.eligible l (s.threads n).cls ≠ (s.threads n).entry ∧
    s'.phases = s.phases
  borrows : ∀ c m, m ∈ (s.controls c).borrows →
    m ∈ (s'.controls c).borrows ∨ m = n ∧ (s'.threads n).pc.acquiring = false
  unused : ∀ c, (s.controls c).borrows = [] → (s'.controls c).borrows = []
  handles : ∀ c, (s'.controls c).handles = (s.controls c).handles
  reason : ∀ c, (s.controls c).inner.reason ≠ 0 →
    (s'.controls c).inner.reason = (s.controls c).inner.reason
  phases : s'.phases = s.phases ∨ ∃ m, s.phases m = .pending ∧
    s'.phases = Function.update s.phases m .stopped ∧ (s'.threads n).pc.announcing = true
  notified : s'.notified = s.notified ∨ s'.notified = s.notified + 1
  announced : (s.threads n).pc.announcing = true → s'.notified = s.notified + 1

/-- What a program counter must satisfy to follow another one in a quiet step. -/
structure Follows (pc pc' : Pc) : Prop where
  waiting : pc'.waiting = pc.waiting
  acquiring : pc'.acquiring = true → pc.acquiring = true
  notAdmitting : pc ≠ .admitting
  notAdmitting' : pc' ≠ .admitting
  notAsleep : pc' ≠ .asleep

theorem Outside.quiet_with {l : WorkLimits} {s s₁ : Sys} {n g i : Nat} {pc : Pc}
    {before after : Bool} (h : Outside s s₁ before after) (pc' : Pc) (hn : (s.threads n).pc = pc)
    (hg : g = (s.threads n).gen ∨ g = s.notified) (hpc : Follows pc pc')
    (hb : before = pc.announcing) (ha : after = pc'.announcing) :
    Quiet l s { s₁ with
      threads := Function.update s.threads n
        { s.threads n with registration := i, gen := g, pc := pc' } } n where
  state := h.state
  leases := h.leases
  holder := h.holder
  created := h.created
  others m hm := Function.update_of_ne hm ..
  call := ⟨g, i, pc', Function.update_self .., hg⟩
  waiting := by simp only [Function.update_self, hn]; exact hpc.waiting
  acquiring := by simp only [Function.update_self, hn]; exact hpc.acquiring
  notAdmitting := by rw [hn]; exact hpc.notAdmitting
  notAdmitting' := by simp only [Function.update_self]; exact hpc.notAdmitting'
  asleep := by simp only [Function.update_self]; exact fun h => absurd h hpc.notAsleep
  borrows c m hm := .inl (by rw [h.borrows c]; exact hm)
  unused c hc := by rw [h.borrows c]; exact hc
  handles := h.handles
  reason := h.reason
  phases := by simp only [Function.update_self, ← ha]; exact h.phases
  notified := h.notified
  announced := by rw [hn, ← hb]; exact h.announced

theorem Outside.quiet {l : WorkLimits} {s s₁ : Sys} {n : Nat} {pc pc' : Pc} {before after : Bool}
    (h : Outside s s₁ before after) (hn : (s.threads n).pc = pc) (hpc : Follows pc pc')
    (hb : before = pc.announcing) (ha : after = pc'.announcing) :
    Quiet l s (s₁.become n pc') n := by
  have q : Quiet l s _ n := h.quiet_with (i := (s.threads n).registration) pc' hn (.inl rfl) hpc hb ha
  simpa only [Sys.become, h.threads] using q

/-- The same for a call that gives back control `c` as it returns. -/
theorem Outside.quiet_release {l : WorkLimits} {s s₁ : Sys} {n : Nat} {pc : Pc}
    {before after : Bool} (h : Outside s s₁ before after) (c : Nat) (pc' : Pc) (hn : (s.threads n).pc = pc)
    (hpc : Follows pc pc') (hacq : pc'.acquiring = false) (hb : before = pc.announcing)
    (ha : after = pc'.announcing) :
    Quiet l s ((s₁.release c n).become n pc') n :=
  have q : Quiet l s (s₁.become n pc') n := h.quiet hn hpc hb ha
  { state := q.state, leases := q.leases, holder := q.holder, created := q.created
    others := q.others, call := q.call, waiting := q.waiting, acquiring := q.acquiring
    notAdmitting := q.notAdmitting, notAdmitting' := q.notAdmitting'
    asleep := q.asleep
    borrows := fun d m hm => by
      by_cases hmn : m = n
      · exact .inr ⟨hmn, by rw [Sys.become_self]; exact hacq⟩
      · exact .inl (Sys.release_borrows _ _ _ _ _ hmn (by rw [h.borrows d]; exact hm))
    unused := fun d hd => Sys.release_unused _ _ _ _ (by rw [h.borrows d]; exact hd)
    handles := fun d => (Sys.release_handles _ _ _ _).trans (h.handles d)
    reason := fun d hr => by
      rw [Sys.become_controls, Sys.release_inner]
      exact h.reason d hr
    phases := q.phases, notified := q.notified, announced := q.announced }

/-- No control has been handed out from number `created` on. -/
def Sys.Fresh (s : Sys) : Prop :=
  ∀ c, s.created ≤ c → (s.controls c).borrows = [] ∧ (s.controls c).handles = 0

/-- The program outside the coordinator acts: the clock, and its own handles of controls. -/
structure Env (s s' : Sys) : Prop where
  state : s'.state = s.state
  leases : s'.leases = s.leases
  holder : s'.holder = s.holder
  phases : s'.phases = s.phases
  threads : s'.threads = s.threads
  notified : s'.notified = s.notified
  created : s.created ≤ s'.created
  borrows : ∀ c, c < s.created → (s'.controls c).borrows = (s.controls c).borrows
  reason : ∀ c, c < s.created → (s'.controls c).inner.reason = (s.controls c).inner.reason
  fresh : s.Fresh → s'.Fresh

theorem Env.setHandles (s : Sys) (c k : Nat) (h : 0 < (s.controls c).handles) :
    Env s (s.setControl c { s.controls c with handles := k }) := by
  have hinner : ∀ d, ((s.setControl c { s.controls c with handles := k }).controls d).inner =
      (s.controls d).inner := by
    intro d
    simp only [Sys.setControl]
    by_cases hd : d = c
    · subst hd; rw [Function.update_self]
    · rw [Function.update_of_ne hd]
  have hborrows : ∀ d, ((s.setControl c { s.controls c with handles := k }).controls d).borrows =
      (s.controls d).borrows := by
    intro d
    simp only [Sys.setControl]
    by_cases hd : d = c
    · subst hd; rw [Function.update_self]
    · rw [Function.update_of_ne hd]
  refine ⟨rfl, rfl, rfl, rfl, rfl, rfl, Nat.le_refl _, fun d _ => hborrows d,
    fun d _ => by rw [hinner], ?_⟩
  intro hf d hd
  have hne : d ≠ c := by
    rintro rfl
    rw [(hf d hd).2] at h
    exact Nat.lt_irrefl _ h
  simp only [Sys.setControl]
  rw [Function.update_of_ne hne]
  exact hf d hd

theorem Env.newControl (s : Sys) (deadline : Option Nat) :
    Env s { s with
      controls := Function.update s.controls s.created { inner := { deadline }, handles := 1 }
      created := s.created + 1 } := by
  have hother : ∀ c, c ≠ s.created → Function.update s.controls s.created
      { inner := { deadline }, handles := 1 } c = s.controls c := fun c hc =>
    Function.update_of_ne hc ..
  refine ⟨rfl, rfl, rfl, rfl, rfl, rfl, Nat.le_succ _, fun c hc => ?_, fun c hc => ?_, ?_⟩
  · dsimp only
    rw [hother c (Nat.ne_of_lt hc)]
  · dsimp only
    rw [hother c (Nat.ne_of_lt hc)]
  · intro hf c hc
    have hc' : s.created + 1 ≤ c := hc
    dsimp only
    rw [hother c (by omega)]
    exact hf c (by omega)

section BorrowAll

variable (n : Nat)

theorem borrowAll_mem {m d : Nat} (cs : List Nat) :
    ∀ s : Sys, m ∈ (s.controls d).borrows → m ∈ ((s.borrowAll n cs).controls d).borrows := by
  induction cs with
  | nil => exact fun s h => h
  | cons c cs ih =>
    intro s h
    refine ih (s.borrow c n) ?_
    rw [Sys.borrow_borrows]
    split
    · exact List.mem_cons_of_mem _ h
    · exact h

theorem borrowAll_inner {d : Nat} (cs : List Nat) :
    ∀ s : Sys, ((s.borrowAll n cs).controls d).inner = (s.controls d).inner := by
  induction cs with
  | nil => exact fun s => rfl
  | cons c cs ih => exact fun s => (ih (s.borrow c n)).trans (Sys.borrow_inner s n c d)

theorem borrowAll_other {d : Nat} (cs : List Nat) (hd : d ∉ cs) :
    ∀ s : Sys, (s.borrowAll n cs).controls d = s.controls d := by
  induction cs with
  | nil => exact fun s => rfl
  | cons c cs ih =>
    intro s
    simp only [List.mem_cons, not_or] at hd
    refine (ih hd.2 (s.borrow c n)).trans ?_
    simp only [Sys.borrow, Sys.setControl]
    exact Function.update_of_ne hd.1 ..

/-- Borrowing touches the controls only. -/
theorem borrowAll_eq (cs : List Nat) :
    ∀ s : Sys, s.borrowAll n cs = { s with controls := (s.borrowAll n cs).controls } := by
  induction cs with
  | nil => exact fun s => rfl
  | cons c cs ih => exact fun s => ih (s.borrow c n)

end BorrowAll

/-- The possible steps of the system from `s`, with the thread that moves. -/
inductive Effect (l : WorkLimits) (s : Sys) : Option Nat → Sys → Prop where
  | env {s' : Sys} (h : Env s s') : Effect l s none s'
  | start (n c : Nat) (t : Thread) (hidle : (s.threads n).pc = .idle)
      (hc : 0 < (s.controls c).handles) (hcontrol : t.control = c) (hentry : t.entry = none)
      (hgen : t.gen = 0) (hpc : t.pc ≠ .asleep ∧ t.pc ≠ .admitting)
      (hwaiting : t.pc.waiting = false) :
      Effect l s (some n) { s.borrow c n with threads := Function.update s.threads n t }
  | quiet {s' : Sys} (n : Nat) (h : Quiet l s s' n) : Effect l s (some n) s'
  | hold (n : Nat) (hpc : (s.threads n).pc = .lock) (hfree : s.holder = none)
      (hopen : s.state.closed = false)
      (he : s.eligible l (s.threads n).cls = (s.threads n).entry) :
      Effect l s (some n) ({ s with holder := some n }.become n .admitting)
  | giveUp (n : Nat) (hpc : (s.threads n).pc = .admitting) (hp : s.phases n ≠ .pending) :
      Effect l s (some n) ({ s with holder := none }.become n .enable)
  | admitEntry (n : Nat) (st : State) (hpc : (s.threads n).pc = .admitting) (hp : s.phases n = .pending)
      (hs : s.state.admitEntry (s.threads n).cls ((s.threads n).entry.getD 0) = some st) :
      Effect l s (some n) (({ s with
        state := st
        holder := none
        phases := Function.update s.phases n .admitted }.notify).become n (.dropPending (some (.ok ()))))
  | enqueue (n id : Nat) (st : State) (hpc : (s.threads n).pc = .enqueue) (hfree : s.holder = none)
      (hs : s.state.enqueue l (s.threads n).project (s.threads n).cls (s.threads n).control n =
        .ok (id, st)) :
      Effect l s (some n) { s with
        state := st
        threads := Function.update s.threads n
          { s.threads n with entry := some id, pc := .enable } }
  | dropPending (n : Nat) (r : Reply) (st : State) (hpc : (s.threads n).pc = .dropPending r)
      (hfree : s.holder = none)
      (hs : s.state.dropPending ((s.threads n).entry.getD 0) = some st) :
      Effect l s (some n) (({ s with state := st }.notify).become n (.unregister r))
  | tryRequest (n id : Nat) (st : State) (hpc : (s.threads n).pc = .requestLock)
      (hfree : s.holder = none) (hs : s.state.tryRequest l (s.threads n).control = .ok (id, st)) :
      Effect l s (some n) (({ s with state := st, leases := { id } :: s.leases }.release
        (s.threads n).control n).become n (.requested (.ok ())))
  | shutdown (n : Nat) (st : State) (all : List Nat) (hpc : (s.threads n).pc = .shutdownLock)
      (hfree : s.holder = none) (hs : s.state.shutdown s.alive = (st, all)) :
      Effect l s (some n) (({ s with state := st }.borrowAll n all).become n (.shutdownNext all all))
  | attach (id : Nat) (project : PathBuf) (st : State) (hfree : s.holder = none)
      (hr : s.leases.find? (fun r => r.id = id) = some ⟨id, none⟩)
      (hs : s.state.attachProject l project = .ok st) :
      Effect l s none { s with
        state := st
        leases := s.leases.map fun r => if r.id = id then { r with project := some project } else r }
  | dropRequest (id : Nat) (r : RequestLease) (st : State) (hfree : s.holder = none)
      (hr : s.leases.find? (fun r => r.id = id) = some r)
      (hs : s.state.dropRequest r.id r.project = some st) :
      Effect l s none { s with state := st, leases := s.leases.eraseP fun r => r.id = id }
  | dropExecution (id : Nat) (st : State) (hfree : s.holder = none)
      (hs : s.state.dropExecution id = some st) :
      Effect l s none { s with state := st, executions := s.executions.erase id }.notify

/-- The thread an action belongs to. -/
def Act.mover : Act → Option Nat
  | .acquire n _ _ _ | .tryRequest n _ | .cancel n _ _ | .shutdown n | .go n | .timeout n
  | .abandon n => some n
  | _ => none

section Inversion

variable {l : WorkLimits} {s s' : Sys}

theorem Sys.locked_next {k : Lib.Outcome Sys} (h : s.locked k = .next s') :
    s.holder = none ∧ k = .next s' := by
  simp only [Sys.locked] at h
  split at h
  · rename_i hf; exact ⟨hf, h⟩
  · cases h

theorem Sys.panicOr_next {o : Option State} {k : State → Sys} (h : panicOr o k = .next s') :
    ∃ st, o = some st ∧ k st = s' := by
  cases o with
  | none => cases h
  | some st => cases h; exact ⟨st, rfl, rfl⟩

theorem start_effect {n c : Nat} {t : Thread} (h : s.start n c t = .next s')
    (hcontrol : t.control = c) (hentry : t.entry = none) (hgen : t.gen = 0)
    (hpc : t.pc ≠ .asleep ∧ t.pc ≠ .admitting) (hwaiting : t.pc.waiting = false) :
    Effect l s (some n) s' := by
  simp only [Sys.start] at h
  split at h
  · rename_i hidle
    split at h
    · rename_i hc
      cases h
      exact .start n c t hidle hc hcontrol hentry hgen hpc hwaiting
    · cases h
  · cases h

/-- A thread that runs `check_control` as part of another call goes on with it. -/
theorem check_quiet {c n : Nat} {k : Check} {o : Check ⊕ Option StopReason} {s₁ : Sys}
    {pc pc' : Pc} (hk : s.checkStep c k = (s₁, o)) (hn : (s.threads n).pc = pc)
    (hb : k.announcing = pc.announcing)
    (ha : (o.elim Check.announcing fun _ => false) = pc'.announcing) (hpc : Follows pc pc') :
    Effect l s (some n) (s₁.become n pc') :=
  .quiet n ((Outside.checkStep hk).quiet hn hpc hb ha)

theorem cancel_quiet {c n : Nat} {f : Cancel} {o : Option Cancel} {s₁ : Sys} {pc pc' : Pc}
    (hf : s.cancelStep c f = (s₁, o)) (hn : (s.threads n).pc = pc)
    (hb : f.announcing = pc.announcing) (ha : o.any Cancel.announcing = pc'.announcing)
    (hpc : Follows pc pc') : Effect l s (some n) (s₁.become n pc') :=
  .quiet n ((Outside.cancelStep hf).quiet hn hpc hb ha)

/-- A thread that changes nothing but its program counter. -/
theorem move_quiet {n : Nat} {pc pc' : Pc} (hn : (s.threads n).pc = pc)
    (hb : pc.announcing = false) (hpc : Follows pc pc') : Effect l s (some n) (s.become n pc') :=
  .quiet n ((Outside.refl s pc'.announcing).quiet hn hpc hb.symm rfl)

theorem acquireCheck_effect {n : Nat} {k : Check} (hpc : (s.threads n).pc = .acquireCheck k)
    (h : s.go l n = .next s') : Effect l s (some n) s' := by
  unfold Sys.go at h
  simp only [hpc] at h
  split at h
  · rename_i hk
    cases h
    exact check_quiet hk hpc rfl rfl (by constructor <;> simp [Pc.waiting, Pc.acquiring])
  · rename_i hk
    cases h
    exact .quiet n ((Outside.checkStep hk).quiet_release _ _ hpc
      (by constructor <;> simp [Pc.waiting, Pc.acquiring]) rfl rfl rfl)
  · rename_i hk
    cases h
    exact check_quiet hk hpc rfl rfl (by constructor <;> simp [Pc.waiting, Pc.acquiring])

theorem registerLock_effect {n : Nat} (hpc : (s.threads n).pc = .registerLock)
    (h : s.go l n = .next s') : Effect l s (some n) s' := by
  unfold Sys.go at h
  simp only [hpc, Inner.register] at h
  split at h
  · rename_i hr
    cases h
    refine .quiet n ((Outside.setInner s _ _ false fun hn => ?_).quiet hpc
      (by constructor <;> simp [Pc.waiting, Pc.acquiring]) rfl rfl)
    split at hr
    · cases hr; rfl
    · cases hr
  · rename_i hr
    cases h
    exact move_quiet hpc rfl (by constructor <;> simp [Pc.waiting, Pc.acquiring])

theorem enqueue_effect {n : Nat} (hpc : (s.threads n).pc = .enqueue)
    (h : s.go l n = .next s') : Effect l s (some n) s' := by
  unfold Sys.go at h
  simp only [hpc] at h
  obtain ⟨hfree, h⟩ := Sys.locked_next h
  split at h
  · cases h
    exact move_quiet hpc rfl (by constructor <;> simp [Pc.waiting, Pc.acquiring])
  · rename_i id st hs
    cases h
    exact .enqueue n id st hpc hfree hs

theorem loopCheck_effect {n : Nat} {k : Check} (hpc : (s.threads n).pc = .loopCheck k)
    (h : s.go l n = .next s') : Effect l s (some n) s' := by
  unfold Sys.go at h
  simp only [hpc] at h
  split at h
  · rename_i hk
    cases h
    exact check_quiet hk hpc rfl rfl (by constructor <;> simp [Pc.waiting, Pc.acquiring])
  · rename_i hk
    cases h
    exact check_quiet hk hpc rfl rfl (by constructor <;> simp [Pc.waiting, Pc.acquiring])
  · rename_i hk
    cases h
    exact check_quiet hk hpc rfl rfl (by constructor <;> simp [Pc.waiting, Pc.acquiring])

theorem lock_effect {n : Nat} (hpc : (s.threads n).pc = .lock)
    (h : s.go l n = .next s') : Effect l s (some n) s' := by
  unfold Sys.go at h
  simp only [hpc] at h
  obtain ⟨hfree, h⟩ := Sys.locked_next h
  split at h
  · cases h
    exact move_quiet hpc rfl (by constructor <;> simp [Pc.waiting, Pc.acquiring])
  · rename_i hopen
    split at h
    · rename_i he
      cases h
      exact .hold n hpc hfree (by simpa using hopen) he
    · rename_i he
      cases h
      -- the only step that puts a waiter to sleep
      have q : Quiet l s (s.become n .enable) n := (Outside.refl s false).quiet hpc
        (by constructor <;> simp [Pc.waiting, Pc.acquiring]) rfl rfl
      exact .quiet n
        { state := rfl, leases := rfl, holder := rfl, created := rfl
          others := fun m hm => Sys.become_other _ _ _ _ hm
          call := ⟨(s.threads n).gen, (s.threads n).registration, .asleep, Sys.become_self .., .inl rfl⟩
          waiting := by simp [hpc, Pc.waiting]
          acquiring := by simp [hpc, Pc.acquiring]
          notAdmitting := q.notAdmitting
          notAdmitting' := by simp
          asleep := fun _ => ⟨he, rfl⟩
          borrows := fun _ _ hm => .inl hm
          unused := fun _ hc => hc
          handles := fun _ => rfl
          reason := fun _ _ => rfl
          phases := .inl rfl
          notified := .inl rfl
          announced := q.announced }

theorem admitting_effect {n : Nat} (hpc : (s.threads n).pc = .admitting)
    (h : s.go l n = .next s') : Effect l s (some n) s' := by
  unfold Sys.go at h
  simp only [hpc] at h
  split at h
  · rename_i hp
    obtain ⟨st, hs, rfl⟩ := Sys.panicOr_next h
    exact .admitEntry n st hpc hp hs
  · rename_i hp
    cases h
    exact .giveUp n hpc hp

theorem asleep_effect {n : Nat} (hpc : (s.threads n).pc = .asleep)
    (h : s.go l n = .next s') : Effect l s (some n) s' := by
  unfold Sys.go at h
  simp only [hpc] at h
  split at h
  · cases h
    exact move_quiet hpc rfl (by constructor <;> simp [Pc.waiting, Pc.acquiring])
  · cases h

theorem timeout_effect {n : Nat} {f : Cancel} (hpc : (s.threads n).pc = .timeout f)
    (h : s.go l n = .next s') : Effect l s (some n) s' := by
  unfold Sys.go at h
  simp only [hpc] at h
  split at h
  · rename_i hf
    cases h
    exact cancel_quiet hf hpc rfl rfl (by constructor <;> simp [Pc.waiting, Pc.acquiring])
  · rename_i hf
    cases h
    exact cancel_quiet hf hpc rfl rfl (by constructor <;> simp [Pc.waiting, Pc.acquiring])

theorem unregister_effect {n : Nat} {r : Reply} (hpc : (s.threads n).pc = .unregister r)
    (h : s.go l n = .next s') : Effect l s (some n) s' := by
  unfold Sys.go at h
  simp only [hpc] at h
  cases h
  have q : Quiet l s _ n := (Outside.setInner s (s.threads n).control
    ((s.controls (s.threads n).control).inner.unregister (s.threads n).registration) false
    fun _ => rfl).quiet_release (s.threads n).control (.finished r) hpc
      (by constructor <;> simp [Pc.waiting, Pc.acquiring]) rfl rfl rfl
  -- the list of execution leases is no part of `Quiet`
  exact .quiet n
    { state := q.state, leases := q.leases, holder := q.holder, created := q.created
      others := q.others, call := q.call, waiting := q.waiting, acquiring := q.acquiring
      notAdmitting := q.notAdmitting, notAdmitting' := q.notAdmitting'
      asleep := q.asleep, borrows := q.borrows, unused := q.unused, handles := q.handles
      reason := q.reason, phases := q.phases, notified := q.notified, announced := q.announced }

theorem requestCheck_effect {n : Nat} {k : Check} (hpc : (s.threads n).pc = .requestCheck k)
    (h : s.go l n = .next s') : Effect l s (some n) s' := by
  unfold Sys.go at h
  simp only [hpc] at h
  split at h
  · rename_i hk
    cases h
    exact check_quiet hk hpc rfl rfl (by constructor <;> simp [Pc.waiting, Pc.acquiring])
  · rename_i hk
    cases h
    exact .quiet n ((Outside.checkStep hk).quiet_release _ _ hpc
      (by constructor <;> simp [Pc.waiting, Pc.acquiring]) rfl rfl rfl)
  · rename_i hk
    cases h
    exact check_quiet hk hpc rfl rfl (by constructor <;> simp [Pc.waiting, Pc.acquiring])

theorem requestLock_effect {n : Nat} (hpc : (s.threads n).pc = .requestLock)
    (h : s.go l n = .next s') : Effect l s (some n) s' := by
  unfold Sys.go at h
  simp only [hpc] at h
  obtain ⟨hfree, h⟩ := Sys.locked_next h
  split at h
  · cases h
    exact .quiet n ((Outside.refl s false).quiet_release _ _ hpc
      (by constructor <;> simp [Pc.waiting, Pc.acquiring]) rfl rfl rfl)
  · rename_i id st hs
    cases h
    exact .tryRequest n id st hpc hfree hs

theorem cancel_effect {n : Nat} {f : Cancel} (hpc : (s.threads n).pc = .cancel f)
    (h : s.go l n = .next s') : Effect l s (some n) s' := by
  unfold Sys.go at h
  simp only [hpc] at h
  split at h
  · rename_i hf
    cases h
    exact cancel_quiet hf hpc rfl rfl (by constructor <;> simp [Pc.waiting, Pc.acquiring])
  · rename_i hf
    cases h
    exact .quiet n ((Outside.cancelStep hf).quiet_release _ _ hpc
      (by constructor <;> simp [Pc.waiting, Pc.acquiring]) rfl rfl rfl)

theorem shutdownCancel_effect {n c : Nat} {f : Cancel} {all rest : List Nat}
    (hpc : (s.threads n).pc = .shutdownCancel all c f rest) (h : s.go l n = .next s') :
    Effect l s (some n) s' := by
  unfold Sys.go at h
  simp only [hpc] at h
  split at h
  · rename_i hf
    cases h
    exact cancel_quiet hf hpc rfl rfl (by constructor <;> simp [Pc.waiting, Pc.acquiring])
  · rename_i hf
    cases h
    exact .quiet n ((Outside.cancelStep hf).quiet_release _ _ hpc
      (by constructor <;> simp [Pc.waiting, Pc.acquiring]) rfl rfl rfl)

theorem go_effect {n : Nat} (h : s.go l n = .next s') : Effect l s (some n) s' := by
  cases hpc : (s.threads n).pc with
  | acquireCheck k => exact acquireCheck_effect hpc h
  | register =>
    unfold Sys.go at h
    simp only [hpc, Inner.takeId] at h
    cases h
    refine .quiet n ((Outside.setInner s _ _ false ?_).quiet_with .registerLock hpc (.inl rfl)
      (by constructor <;> simp [Pc.waiting, Pc.acquiring]) rfl rfl)
    exact fun _ => rfl
  | registerLock => exact registerLock_effect hpc h
  | callback =>
    unfold Sys.go at h
    simp only [hpc] at h
    cases h
    exact .quiet n ((Outside.stopPhase s n).quiet hpc
      (by constructor <;> simp [Pc.waiting, Pc.acquiring]) rfl rfl)
  | callbackNotify =>
    unfold Sys.go at h
    simp only [hpc] at h
    cases h
    exact .quiet n ((Outside.notify s true false).quiet hpc
      (by constructor <;> simp [Pc.waiting, Pc.acquiring]) rfl rfl)
  | enqueue => exact enqueue_effect hpc h
  | enable =>
    unfold Sys.go at h
    simp only [hpc] at h
    cases h
    exact .quiet n ((Outside.refl s false).quiet_with (.loopCheck .deadline) hpc (.inr rfl)
      (by constructor <;> simp [Pc.waiting, Pc.acquiring]) rfl rfl)
  | loopCheck k => exact loopCheck_effect hpc h
  | lock => exact lock_effect hpc h
  | admitting => exact admitting_effect hpc h
  | asleep => exact asleep_effect hpc h
  | timeout f => exact timeout_effect hpc h
  | dropPending r =>
    unfold Sys.go at h
    simp only [hpc] at h
    obtain ⟨hfree, h⟩ := Sys.locked_next h
    obtain ⟨st, hs, rfl⟩ := Sys.panicOr_next h
    exact .dropPending n r st hpc hfree hs
  | unregister r => exact unregister_effect hpc h
  | requestCheck k => exact requestCheck_effect hpc h
  | requestLock => exact requestLock_effect hpc h
  | cancel f => exact cancel_effect hpc h
  | shutdownLock =>
    unfold Sys.go at h
    simp only [hpc] at h
    obtain ⟨hfree, h⟩ := Sys.locked_next h
    cases h
    exact .shutdown n _ _ hpc hfree rfl
  | shutdownCancel all c f rest => exact shutdownCancel_effect hpc h
  | shutdownNext all rest =>
    cases rest with
    | nil =>
      unfold Sys.go at h
      simp only [hpc] at h
      cases h
      exact move_quiet hpc rfl (by constructor <;> simp [Pc.waiting, Pc.acquiring])
    | cons c rest =>
      unfold Sys.go at h
      simp only [hpc] at h
      cases h
      exact move_quiet hpc rfl (by constructor <;> simp [Pc.waiting, Pc.acquiring])
  | shutdownNotify all =>
    unfold Sys.go at h
    simp only [hpc] at h
    cases h
    exact .quiet n ((Outside.notify s false false).quiet hpc
      (by constructor <;> simp [Pc.waiting, Pc.acquiring]) rfl rfl)
  | idle | finished _ | requested _ | cancelled | shutdownDone _ =>
    unfold Sys.go at h
    simp only [hpc] at h
    cases h

theorem step_effect {a : Act} (h : step l s a = .next s') : Effect l s a.mover s' := by
  cases a with
  | tick =>
    cases h
    exact .env ⟨rfl, rfl, rfl, rfl, rfl, rfl, Nat.le_refl _, fun _ _ => rfl, fun _ _ => rfl, id⟩
  | newControl deadline => cases h; exact .env (Env.newControl s deadline)
  | cloneControl c =>
    simp only [step] at h
    split at h
    · rename_i hc; cases h; exact .env (Env.setHandles s c _ hc)
    · cases h
  | dropControl c =>
    simp only [step] at h
    split at h
    · rename_i hc; cases h; exact .env (Env.setHandles s c _ hc)
    · cases h
  | acquire n project cls c => exact start_effect h rfl rfl rfl (by simp) rfl
  | tryRequest n c => exact start_effect h rfl rfl rfl (by simp) rfl
  | cancel n c r => exact start_effect h rfl rfl rfl (by simp) rfl
  | shutdown n =>
    simp only [step] at h
    split at h
    · rename_i hidle
      cases h
      exact move_quiet hidle rfl (by constructor <;> simp [Pc.waiting, Pc.acquiring])
    · cases h
  | go n => exact go_effect h
  | timeout n =>
    simp only [step] at h
    split at h
    · rename_i hpc
      split at h
      · cases h
        exact move_quiet hpc rfl (by constructor <;> simp [Pc.waiting, Pc.acquiring])
      · cases h
    · cases h
  | abandon n =>
    simp only [step] at h
    split at h
    · rename_i hpc
      cases h
      exact move_quiet hpc rfl (by constructor <;> simp [Pc.waiting, Pc.acquiring])
    · cases h
  | attachProject id project =>
    have hsame : Effect l s none s :=
      .env ⟨rfl, rfl, rfl, rfl, rfl, rfl, Nat.le_refl _, fun _ _ => rfl, fun _ _ => rfl, fun h => h⟩
    simp only [step] at h
    split at h
    · cases h
    · cases h; exact hsame
    · rename_i i hr
      obtain ⟨hfree, h⟩ := Sys.locked_next h
      split at h
      · cases h; exact hsame
      · rename_i st hs
        cases h
        have hi : i = id := by simpa using List.find?_some hr
        subst hi
        exact .attach i project st hfree hr hs
  | dropRequest id =>
    simp only [step] at h
    split at h
    · rename_i r hr
      obtain ⟨hfree, h⟩ := Sys.locked_next h
      obtain ⟨st, hs, rfl⟩ := Sys.panicOr_next h
      exact .dropRequest id r st hfree hr hs
    · cases h
  | dropExecution id =>
    simp only [step] at h
    split at h
    · obtain ⟨hfree, h⟩ := Sys.locked_next h
      obtain ⟨st, hs, rfl⟩ := Sys.panicOr_next h
      exact .dropExecution id st hfree hs
    · cases h

end Inversion

end Mcp
end CodeSage
