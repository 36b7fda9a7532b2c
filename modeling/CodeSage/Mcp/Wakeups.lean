import CodeSage.Mcp.Invariant

/-!
# CodeSage.Mcp.Wakeups

No waiter of the coordinator sleeps through its turn. A waiter that found somebody else eligible
sleeps until the next `notify_waiters`; whatever makes it eligible afterwards is followed by one.

`Heard` is the invariant. The critical sections that can make another entry eligible notify before
they release the mutex. A cancel callback does not hold the mutex: between its exchange of the
phase and its `notify_waiters` an eligible waiter may be asleep with nothing announced, and
`stopped_before_notify` runs the system into such a state. There the callback's next step wakes it.
-/

namespace CodeSage
namespace Mcp

open Protocol

/-- An entry of this number is eligible in some lane, and the call that owns it sleeps and has not
been notified since it enabled its `Notified` future. -/
def Sleeper (l : WorkLimits) (s : Sys) (n : Nat) : Prop :=
  (s.threads n).pc = .asleep ∧ s.notified ≤ (s.threads n).gen ∧
    ∃ c id, (s.threads n).entry = some id ∧ s.eligible l c = some id

def Heard (l : WorkLimits) (s : Sys) : Prop :=
  ∀ n, Sleeper l s n → ∃ m, (s.threads m).pc.announcing = true

section

variable {l : WorkLimits} {s s' : Sys}

/-- What the rule depends on. -/
theorem Pick.congr {st st' : State} {phases : Nat → Phase} {c : WorkClass} {e : Pending}
    (h : Pick l st' phases c e) (hq : st'.queued = st.queued) (hr : st'.running = st.running)
    (hl : st'.lastProject = st.lastProject) : Pick l st phases c e := by
  have hw : ∀ e, Waiting l st' phases c e ↔ Waiting l st phases c e := by
    intro e; simp only [Waiting, State.runningIn, hr]
  refine ⟨hq ▸ h.mem, ?_, (hw e).mp h.waiting, ?_, ?_⟩
  · have := h.lane
    simp only [State.runningCount, hr] at this ⊢
    exact this
  · intro hlast e' he' hw'
    exact h.best.rotates (hl ▸ hlast) e' (hq ▸ he') ((hw e').mpr hw')
  · intro e' he' hw' hlast
    exact h.best.earliest e' (hq ▸ he') ((hw e').mpr hw') (hl ▸ hlast)

/-- An entry that is picked with one more entry in the queue is picked without it. -/
theorem Pick.of_append {st st' : State} {phases : Nat → Phase} {c : WorkClass} {e x : Pending}
    (hq : st'.queued = st.queued ++ [x]) (hr : st'.running = st.running)
    (hl : st'.lastProject = st.lastProject) (he : e ∈ st.queued) (h : Pick l st' phases c e) :
    Pick l st phases c e := by
  have hw : ∀ e, Waiting l st' phases c e ↔ Waiting l st phases c e := by
    intro e; simp only [Waiting, State.runningIn, hr]
  have hmem : ∀ e' ∈ st.queued, e' ∈ st'.queued := by
    intro e' he'; rw [hq]; exact List.mem_append_left _ he'
  refine ⟨he, ?_, (hw e).mp h.waiting, ?_, ?_⟩
  · have := h.lane
    simp only [State.runningCount, hr] at this ⊢
    exact this
  · intro hlast e' he' hw'
    exact h.best.rotates (hl ▸ hlast) e' (hmem e' he') ((hw e').mpr hw')
  · intro e' he' hw' hlast
    exact h.best.earliest e' (hmem e' he') ((hw e').mpr hw') (hl ▸ hlast)

/-- A step after a `notify_waiters`: nobody who sleeps has missed it. -/
theorem Heard.of_notified (hgen : ∀ n, (s'.threads n).gen ≤ s.notified)
    (hn : s'.notified = s.notified + 1) : Heard l s' := by
  rintro n ⟨_, hle, _⟩
  have := hgen n
  omega

/-- A step without a notification: who sleeps afterwards slept before, those who announce still do,
and the rule picks no sleeper it did not pick before. -/
theorem Heard.keep (hi : Inv l s) (hi' : Inv l s') (h : Heard l s) (hn : s'.notified = s.notified)
    (hsleep : ∀ n, (s'.threads n).pc = .asleep → s'.threads n = s.threads n)
    (hann : ∀ m, (s.threads m).pc.announcing = true → (s'.threads m).pc.announcing = true)
    (hpick : ∀ n c e, (s'.threads n).pc = .asleep → (s'.threads n).entry = some e.id →
      Pick l s'.state s'.phases c e → Pick l s.state s.phases c e) : Heard l s' := by
  rintro n ⟨hpc, hle, c, id, hid, he⟩
  obtain ⟨e, hp, rfl⟩ := hi'.eligible_iff.mp he
  have hp' := hpick n c e hpc hid hp
  have ht := hsleep n hpc
  rw [ht] at hpc hle hid
  rw [hn] at hle
  obtain ⟨m, hm⟩ := h n ⟨hpc, hle, c, e.id, hid, hi.eligible_iff.mpr ⟨e, hp', rfl⟩⟩
  exact ⟨m, hann m hm⟩

/-- `Heard.keep` for a critical section of thread `n`. -/
theorem Heard.become (hi : Inv l s) (hi' : Inv l s') (h : Heard l s) {n : Nat} {pc' : Pc}
    (hn : s'.notified = s.notified) (ht : s'.threads = (s.become n pc').threads)
    (hpc : (s.threads n).pc.announcing = false) (hpc' : pc' ≠ .asleep)
    (hpick : ∀ c e, Pick l s'.state s'.phases c e → Pick l s.state s.phases c e) : Heard l s' := by
  refine h.keep hi hi' hn ?_ ?_ fun _ c e _ _ => hpick c e
  · intro m hm
    rw [ht] at hm ⊢
    rw [become_pc] at hm
    split at hm
    · exact absurd hm hpc'
    · rename_i hmn; exact Sys.become_other _ _ _ _ hmn
  · intro m hm
    have hmn : m ≠ n := by rintro rfl; rw [hpc] at hm; cases hm
    rw [ht, Sys.become_other _ _ _ _ hmn]
    exact hm

theorem Heard.quiet (hi : Inv l s) (hi' : Inv l s') (h : Heard l s) {n : Nat}
    (q : Quiet l s s' n) : Heard l s' := by
  rcases q.notified with hn | hn
  · have hquiet : (s.threads n).pc.announcing = false := by
      by_contra hp
      have := q.announced (by simpa using hp)
      omega
    rcases q.phases with hp | ⟨k, _, _, ha⟩
    · -- the phases are the same, so the rule picks the same entries
      have hpick : ∀ c e, Pick l s'.state s'.phases c e → Pick l s.state s.phases c e := by
        intro c e; rw [q.state, hp]; exact fun h => h
      have hann : ∀ m, (s.threads m).pc.announcing = true → (s'.threads m).pc.announcing = true := by
        intro m hm
        have hmn : m ≠ n := by rintro rfl; rw [hquiet] at hm; cases hm
        rw [q.others m hmn]; exact hm
      rintro m ⟨hpc, hle, c, id, hid, he⟩
      by_cases hmn : m = n
      · subst hmn
        -- a waiter goes to sleep only after it has seen that somebody else is eligible
        rw [(q.thread m).1] at hid
        obtain ⟨e, hp', rfl⟩ := hi'.eligible_iff.mp he
        have hp' := hpick c e hp'
        have hc : (s.threads m).cls = c := by
          rw [← hi.owner hp'.mem hid, (hi.queued e hp'.mem).cls]; exact hp'.waiting.1
        exact absurd (hc ▸ hi.eligible_iff.mpr ⟨e, hp', rfl⟩) (hid ▸ (q.asleep hpc).1)
      · rw [q.others m hmn] at hpc hle hid
        obtain ⟨e, hp', rfl⟩ := hi'.eligible_iff.mp he
        obtain ⟨k, hk⟩ := h m ⟨hpc, hn ▸ hle, c, e.id, hid,
          hi.eligible_iff.mpr ⟨e, hpick c e hp', rfl⟩⟩
        exact ⟨k, hann k hk⟩
    · exact fun _ _ => ⟨n, ha⟩
  · refine Heard.of_notified (fun m => ?_) hn
    by_cases hmn : m = n
    · subst hmn
      obtain ⟨g, i, pc, ht, hg⟩ := q.call
      rw [ht]
      rcases hg with rfl | rfl
      · exact hi.gen_le m
      · exact Nat.le_refl _
    · rw [q.others m hmn]; exact hi.gen_le m

theorem Heard.effect (hl : l.validate = .ok ()) {o : Option Nat} (hi : Inv l s) (h : Heard l s)
    (he : Effect l s o s') : Heard l s' := by
  have hi' := hi.effect hl he
  cases he with
  | env he =>
    refine h.keep hi hi' he.notified (fun n _ => by rw [he.threads]) ?_ ?_
    · intro m hm; rw [he.threads]; exact hm
    · intro n c e _ _ hp; rw [he.state, he.phases] at hp; exact hp
  | start n c t hidle hc hcontrol hentry hgen hpc hwaiting =>
    refine h.keep hi hi' rfl ?_ ?_ fun _ _ _ _ _ hp => hp
    · intro m hm
      by_cases hmn : m = n
      · subst hmn
        dsimp only at hm
        rw [Function.update_self] at hm
        exact absurd hm hpc.1
      · exact Function.update_of_ne hmn ..
    · intro m hm
      have hmn : m ≠ n := by rintro rfl; rw [hidle] at hm; cases hm
      dsimp only
      rw [Function.update_of_ne hmn]
      exact hm
  | quiet n q => exact h.quiet hi hi' q
  | hold n hpc hfree hopen he =>
    exact h.become hi hi' rfl rfl (by rw [hpc]; rfl) (by simp) fun _ _ hp => hp
  | giveUp n hpc hp => exact h.become hi hi' rfl rfl (by rw [hpc]; rfl) (by simp) fun _ _ hp => hp
  | admitEntry n st hpc hp hs =>
    refine Heard.of_notified (fun m => ?_) rfl
    rw [(become_call _ _ _ m).2.2.2]
    exact hi.gen_le m
  | enqueue n id st hpc hfree hs =>
    obtain ⟨_, _, _, hid, hst⟩ := enqueue_ok hs
    have hother : ∀ m, m ≠ n → Function.update s.threads n
        { s.threads n with entry := some id, pc := .enable } m = s.threads m :=
      fun m hm => Function.update_of_ne hm ..
    have hsleep : ∀ m, (Function.update s.threads n
        { s.threads n with entry := some id, pc := .enable } m).pc = .asleep → m ≠ n := by
      rintro m hm rfl
      rw [Function.update_self] at hm
      cases hm
    refine h.keep hi hi' rfl (fun m hm => hother m (hsleep m hm)) ?_ ?_
    · intro m hm
      have hmn : m ≠ n := by rintro rfl; rw [hpc] at hm; cases hm
      dsimp only
      rw [hother m hmn]; exact hm
    · intro m c e hm hme hp
      dsimp only at hme hp
      rw [hother m (hsleep m hm)] at hme
      have hle := hi.entry_le m _ hme
      have hmem : e ∈ s.state.queued := by
        have := hp.mem
        rw [hst] at this
        rcases List.mem_append.mp this with h | h
        · exact h
        · rw [List.mem_singleton.mp h] at hle
          simp only at hle; omega
      exact hp.of_append (by rw [hst]) (by rw [hst]) (by rw [hst]) hmem
  | dropPending n r st hpc hfree hs =>
    refine Heard.of_notified (fun m => ?_) rfl
    rw [(become_call _ _ _ m).2.2.2]
    exact hi.gen_le m
  | tryRequest n id st hpc hfree hs =>
    have hst := (tryRequest_ok hs).2.2.2
    exact h.become hi hi' rfl rfl (by rw [hpc]; rfl) (by simp) fun _ _ hp =>
      hp.congr (by rw [hst]; rfl) (by rw [hst]; rfl) (by rw [hst]; rfl)
  | shutdown n st all hpc hfree hs =>
    have heq := borrowAll_eq n all { s with state := st }
    have hst : st = { s.state with closed := true } := (congrArg Prod.fst hs).symm
    have ht : (({ s with state := st }.borrowAll n all).become n (.shutdownNext all all)).threads =
        (s.become n (.shutdownNext all all)).threads := by rw [heq]; rfl
    refine h.become hi hi' (by rw [heq]; rfl) ht (by rw [hpc]; rfl) (by simp) fun c e hp => ?_
    have hp : Pick l { s.state with closed := true } s.phases c e := by
      rw [heq, hst] at hp; exact hp
    exact hp.congr rfl rfl rfl
  | attach id project st hfree hr hs =>
    have hst := (attachProject_ok (WorkLimits.validate_ok hl).1 hs).2.2
    refine h.keep hi hi' rfl (fun _ _ => rfl) (fun _ hm => hm) fun _ c e _ _ hp => ?_
    exact hp.congr (by rw [hst]) (by rw [hst]) (by rw [hst])
  | dropRequest id r st hfree hr hs =>
    obtain ⟨st', hs', hst, _⟩ := hi.books.dropRequest hr
    obtain rfl : st' = st := by rw [hs'] at hs; exact Option.some.inj hs
    refine h.keep hi hi' rfl (fun _ _ => rfl) (fun _ hm => hm) fun _ c e _ _ hp => ?_
    exact hp.congr (by rw [hst]) (by rw [hst]) (by rw [hst])
  | dropExecution id st hfree hs => exact Heard.of_notified hi.gen_le rfl

theorem Reachable.heard (hl : l.validate = .ok ()) (h : Reachable l s) : Inv l s ∧ Heard l s := by
  refine h.invariant (P := fun s => Inv l s ∧ Heard l s) ?_ ⟨Inv.init l, ?_⟩
  · intro s a s' hi hs
    exact ⟨hi.1.step hl hs, hi.2.effect hl hi.1 (step_effect hs)⟩
  · rintro n ⟨hpc, _⟩
    cases hpc

theorem cancelStep_notify {c : Nat} {f : Cancel} (h : f.announcing = true) :
    ∃ f', s.cancelStep c f = (s.notify, some f') := by
  cases f with
  | notify todo => exact ⟨_, rfl⟩
  | exchange | lock | callback => cases h

theorem checkStep_notify {c : Nat} {k : Check} (h : k.announcing = true) :
    ∃ k', s.checkStep c k = (s.notify, .inl k') := by
  cases k with
  | cancel f =>
    obtain ⟨f', hf⟩ := cancelStep_notify (s := s) (c := c) h
    exact ⟨.cancel f', by simp only [Sys.checkStep, hf]⟩
  | deadline | load => cases h

/-- The next step of a thread that announces is enabled, and notifies. -/
theorem announcing_step {m : Nat} (h : (s.threads m).pc.announcing = true) :
    ∃ s', step l s (.go m) = .next s' ∧ s'.notified = s.notified + 1 := by
  cases hpc : (s.threads m).pc with
  | callbackNotify => exact ⟨s.notify.become m .enqueue, by simp only [step, Sys.go, hpc], rfl⟩
  | acquireCheck k =>
    obtain ⟨k', hk⟩ := checkStep_notify (s := s) (c := (s.threads m).control) (hpc ▸ h)
    exact ⟨s.notify.become m (.acquireCheck k'), by simp only [step, Sys.go, hpc, hk], rfl⟩
  | loopCheck k =>
    obtain ⟨k', hk⟩ := checkStep_notify (s := s) (c := (s.threads m).control) (hpc ▸ h)
    exact ⟨s.notify.become m (.loopCheck k'), by simp only [step, Sys.go, hpc, hk], rfl⟩
  | requestCheck k =>
    obtain ⟨k', hk⟩ := checkStep_notify (s := s) (c := (s.threads m).control) (hpc ▸ h)
    exact ⟨s.notify.become m (.requestCheck k'), by simp only [step, Sys.go, hpc, hk], rfl⟩
  | timeout f =>
    obtain ⟨f', hf⟩ := cancelStep_notify (s := s) (c := (s.threads m).control) (hpc ▸ h)
    exact ⟨s.notify.become m (.timeout f'), by simp only [step, Sys.go, hpc, hf], rfl⟩
  | cancel f =>
    obtain ⟨f', hf⟩ := cancelStep_notify (s := s) (c := (s.threads m).control) (hpc ▸ h)
    exact ⟨s.notify.become m (.cancel f'), by simp only [step, Sys.go, hpc, hf], rfl⟩
  | shutdownCancel all c f rest =>
    obtain ⟨f', hf⟩ := cancelStep_notify (s := s) (c := c) (hpc ▸ h)
    exact ⟨s.notify.become m (.shutdownCancel all c f' rest), by simp only [step, Sys.go, hpc, hf], rfl⟩
  | _ => rw [hpc] at h; cases h

end

/-- An eligible entry's call is asleep and not notified only while some cancel callback stands
between its phase exchange and its `notify_waiters`, and the next step of that callback, which
nothing can block, wakes the sleeper. -/
theorem no_lost_wakeup (l : WorkLimits) (hl : l.validate = .ok ()) (s : Sys) (h : Reachable l s)
    (n : Nat) (hn : Sleeper l s n) :
    ∃ m s', (s.threads m).pc.announcing = true ∧ step l s (.go m) = .next s' ∧
      (s.threads n).gen < s'.notified := by
  have hheard := h.heard hl
  obtain ⟨m, hm⟩ := hheard.2 n hn
  obtain ⟨s', hs, hs'⟩ := announcing_step (l := l) hm
  have := hheard.1.gen_le n
  exact ⟨m, s', hm, hs, by omega⟩

/-- Thread 1 falls asleep because thread 0, still awake, is eligible before it. Thread 2 cancels
the control of thread 0 and has stopped its phase, but not notified yet. -/
def stopping : List Act :=
  [.newControl none, .newControl none, .acquire 0 "p" .native 0, .acquire 1 "q" .native 1] ++
    List.replicate 5 (.go 0) ++ List.replicate 9 (.go 1) ++
    [.cancel 2 0 .clientCancelled, .go 2, .go 2, .go 2]

def Pc.isAsleep : Pc → Bool
  | .asleep => true
  | _ => false

theorem Pc.eq_asleep {pc : Pc} (h : pc.isAsleep = true) : pc = .asleep := by
  cases pc with
  | asleep => rfl
  | _ => cases h

theorem stopping_sleeper : ∃ s, Reachable .default s ∧ Sleeper .default s 1 := by
  obtain ⟨s, hs, ht⟩ := Lib.steps_of_run (step .default) {} stopping
    (fun s => (s.threads 1).pc.isAsleep && decide (s.notified ≤ (s.threads 1).gen) && (s.threads 1).entry == some 2 &&
      s.eligible .default .native == some 2) (by decide +kernel)
  simp only [Bool.and_eq_true, decide_eq_true_eq, beq_iff_eq] at ht
  exact ⟨s, hs, Pc.eq_asleep ht.1.1.1, ht.1.1.2, .native, 2, ht.1.2, ht.2⟩

theorem stopped_before_notify :
    ¬ ∀ l : WorkLimits, l.validate = .ok () → ∀ s, Reachable l s → ∀ n, ¬ Sleeper l s n := by
  intro hall
  obtain ⟨s, hs, hn⟩ := stopping_sleeper
  exact hall .default WorkLimits.validate_default s hs 1 hn

theorem no_lost_wakeup_stopping :
    ∃ s, Reachable .default s ∧ Sleeper .default s 1 ∧
      ∃ m s', (s.threads m).pc.announcing = true ∧ step .default s (.go m) = .next s' ∧
        (s.threads 1).gen < s'.notified := by
  obtain ⟨s, hs, hn⟩ := stopping_sleeper
  exact ⟨s, hs, hn, no_lost_wakeup .default WorkLimits.validate_default s hs 1 hn⟩

end Mcp
end CodeSage
