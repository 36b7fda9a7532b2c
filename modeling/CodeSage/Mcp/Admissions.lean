import CodeSage.Mcp.Invariant

/-!
# CodeSage.Mcp.Admissions

Whole runs of the coordinator: in which order entries are admitted, that a stopped entry never
runs and no entry runs twice, and what `shutdown` leaves behind.

The first three parts rest on what a step can add to the queue, the running map and the requests.
The last one follows the thread inside `shutdown`: `Sweep` says which of the controls it collected
have been cancelled at each point of its loop, other threads only add to that, and the thread is
never blocked, so it completes by its own steps from wherever the others are.
-/

namespace CodeSage
namespace Mcp

open Protocol

/-- The step from `s` to `s'` moves the entry `e` from the queue to the running map. -/
structure Admitted (l : WorkLimits) (s s' : Sys) (e : Pending) : Prop where
  queued : e ∈ s.state.queued
  gone : ∀ e' ∈ s'.state.queued, e'.id ≠ e.id
  runs : s'.state.running.lookup e.id = some ⟨e.project, e.cls, e.control⟩
  pending : s.phases e.phase = .pending
  stillOpen : s.state.closed = false
  best : Best l s.state s.phases e.cls e

section

variable {l : WorkLimits} {s s' : Sys} {o : Option Nat}

theorem Effect.running (hl : l.validate = .ok ()) (h : Inv l s) (he : Effect l s o s') {id : Nat}
    (hid : id ∈ s'.state.running) : id ∈ s.state.running ∨ ∃ e, e.id = id ∧ Admitted l s s' e := by
  cases he with
  | env he => rw [he.state] at hid; exact .inl hid
  | quiet n q => rw [q.state] at hid; exact .inl hid
  | start | hold | giveUp => exact .inl hid
  | admitEntry n st hpc hp hs =>
    obtain ⟨e, hentry, hn, ha, hb⟩ := h.picked n hpc
    rw [hentry] at hs
    have hst := (admitEntry_eq h.books ha).symm.trans hs
    rw [Option.some.injEq] at hst
    have hid : id ∈ st.running := hid
    rw [← hst] at hid
    rcases (AList.mem_insert _).mp hid with rfl | hid
    · refine .inr ⟨e, rfl, List.mem_of_find?_eq_some ha.found, ?_, ?_, hn ▸ hp, ?_, ha.cls ▸ hb⟩
      · intro e' he'
        have he' : e' ∈ st.queued := he'
        rw [← hst] at he'
        exact h.books.erased ha.found he'
      · show st.running.lookup e.id = _
        rw [← hst, ha.cls]
        exact AList.lookup_insert _
      · by_contra hc
        have hc := h.closed (by simpa using hc)
        rw [(h.holder n).mpr hpc] at hc
        cases hc
    · exact .inl hid
  | enqueue n i st hpc hfree hs =>
    have hid : id ∈ st.running := hid
    rw [(enqueue_ok hs).2.2.2.2] at hid
    exact .inl hid
  | dropPending n r st hpc hfree hs =>
    obtain ⟨st', hs', hst, _⟩ := h.books.dropPending ((s.threads n).entry.getD 0)
    obtain rfl : st' = st := by rw [hs'] at hs; exact Option.some.inj hs
    have hid : id ∈ st'.running := hid
    rw [hst] at hid
    exact .inl hid
  | tryRequest n i st hpc hfree hs =>
    have hid : id ∈ st.running := hid
    rw [(tryRequest_ok hs).2.2.2] at hid
    exact .inl hid
  | shutdown n st all hpc hfree hs =>
    have hst : st = { s.state with closed := true } := (congrArg Prod.fst hs).symm
    rw [Sys.become_state, borrowAll_eq n all] at hid
    have hid : id ∈ st.running := hid
    rw [hst] at hid
    exact .inl hid
  | attach i project st hfree hr hs =>
    have hid : id ∈ st.running := hid
    rw [(attachProject_ok (WorkLimits.validate_ok hl).1 hs).2.2] at hid
    exact .inl hid
  | dropRequest i r st hfree hr hs =>
    obtain ⟨st', hs', hst, _⟩ := h.books.dropRequest hr
    obtain rfl : st' = st := by rw [hs'] at hs; exact Option.some.inj hs
    have hid : id ∈ st'.running := hid
    rw [hst] at hid
    exact .inl hid
  | dropExecution i st hfree hs =>
    obtain ⟨st', hs', hst, _⟩ := h.books.dropExecution i
    obtain rfl : st' = st := by rw [hs'] at hs; exact Option.some.inj hs
    have hid : id ∈ st'.running := hid
    rw [hst] at hid
    exact .inl (AList.mem_erase.mp hid).2

/-- What a step does to the rest of the mutex state. -/
structure Grows (s s' : Sys) : Prop where
  closed : s.state.closed = true → s'.state.closed = true
  nextId : s.state.nextId ≤ s'.state.nextId
  queued : ∀ e ∈ s'.state.queued,
    e ∈ s.state.queued ∨ s.state.closed = false ∧ s.state.nextId < e.id
  requests : ∀ x ∈ s'.state.requests.entries,
    x ∈ s.state.requests.entries ∨ s.state.closed = false

theorem Grows.of_state (h : s'.state = s.state) : Grows s s' :=
  ⟨by rw [h]; exact id, by rw [h], by rw [h]; exact fun _ he => .inl he,
    by rw [h]; exact fun _ hx => .inl hx⟩

theorem Effect.grows (hl : l.validate = .ok ()) (h : Inv l s) (he : Effect l s o s') :
    Grows s s' := by
  cases he with
  | env he => exact Grows.of_state he.state
  | quiet n q => exact Grows.of_state q.state
  | start | hold | giveUp => exact Grows.of_state rfl
  | admitEntry n st hpc hp hs =>
    obtain ⟨e, hentry, _, ha, _⟩ := h.picked n hpc
    rw [hentry] at hs
    have hst := (admitEntry_eq h.books ha).symm.trans hs
    rw [Option.some.injEq] at hst
    subst hst
    exact ⟨id, Nat.le_refl _, fun e he => .inl (List.eraseP_sublist.subset he), fun _ hx => .inl hx⟩
  | enqueue n i st hpc hfree hs =>
    obtain ⟨hopen, _, _, hi, rfl⟩ := enqueue_ok hs
    refine ⟨id, by simp only; omega, fun e he => ?_, fun _ hx => .inl hx⟩
    rcases List.mem_append.mp he with he | he
    · exact .inl he
    · rw [List.mem_singleton.mp he]
      exact .inr ⟨hopen, by simp only; omega⟩
  | dropPending n r st hpc hfree hs =>
    obtain ⟨st', hs', hst, _⟩ := h.books.dropPending ((s.threads n).entry.getD 0)
    obtain rfl : st' = st := by rw [hs'] at hs; exact Option.some.inj hs
    refine ⟨?_, ?_, ?_, ?_⟩
    · show _ → st'.closed = true
      rw [hst]; exact id
    · show _ ≤ st'.nextId
      rw [hst]
    · show ∀ e ∈ st'.queued, _
      rw [hst]; exact fun e he => .inl (List.eraseP_sublist.subset he)
    · show ∀ x ∈ st'.requests.entries, _
      rw [hst]; exact fun _ hx => .inl hx
  | tryRequest n i st hpc hfree hs =>
    obtain ⟨hopen, _, hi, rfl⟩ := tryRequest_ok hs
    exact ⟨id, by show s.state.nextId ≤ i; omega, fun _ he => .inl he, fun _ _ => .inr hopen⟩
  | shutdown n st all hpc hfree hs =>
    have hst : st = { s.state with closed := true } := (congrArg Prod.fst hs).symm
    have heq : (({ s with state := st }.borrowAll n all).become n (.shutdownNext all all)).state =
        { s.state with closed := true } := by rw [Sys.become_state, borrowAll_eq n all, ← hst]
    exact ⟨by rw [heq]; exact fun _ => rfl, by rw [heq], by rw [heq]; exact fun _ he => .inl he,
      by rw [heq]; exact fun _ hx => .inl hx⟩
  | attach i project st hfree hr hs =>
    obtain ⟨_, _, rfl⟩ := attachProject_ok (WorkLimits.validate_ok hl).1 hs
    exact ⟨id, Nat.le_refl _, fun _ he => .inl he, fun _ hx => .inl hx⟩
  | dropRequest i r st hfree hr hs =>
    obtain ⟨st', hs', hst, _⟩ := h.books.dropRequest hr
    obtain rfl : st' = st := by rw [hs'] at hs; exact Option.some.inj hs
    refine ⟨?_, ?_, ?_, ?_⟩
    · show _ → st'.closed = true
      rw [hst]; exact id
    · show _ ≤ st'.nextId
      rw [hst]
    · show ∀ e ∈ st'.queued, _
      rw [hst]; exact fun e he => .inl he
    · show ∀ x ∈ st'.requests.entries, _
      rw [hst]
      exact fun x hx => .inl ((List.kerase_sublist _ _).subset hx)
  | dropExecution i st hfree hs =>
    obtain ⟨st', hs', hst, _⟩ := h.books.dropExecution i
    obtain rfl : st' = st := by rw [hs'] at hs; exact Option.some.inj hs
    refine ⟨?_, ?_, ?_, ?_⟩
    · show _ → st'.closed = true
      rw [hst]; exact id
    · show _ ≤ st'.nextId
      rw [hst]
    · show ∀ e ∈ st'.queued, _
      rw [hst]; exact fun e he => .inl he
    · show ∀ x ∈ st'.requests.entries, _
      rw [hst]; exact fun _ hx => .inl hx

theorem Effect.stopped (he : Effect l s o s') {n : Nat} (h : s.phases n = .stopped) :
    s'.phases n = .stopped := by
  cases he with
  | env he => rw [he.phases]; exact h
  | quiet k q =>
    rcases q.phases with hp | ⟨m, _, hp, _⟩
    · rw [hp]; exact h
    · rw [hp]
      by_cases hm : n = m
      · rw [hm, Function.update_self]
      · rw [Function.update_of_ne hm]; exact h
  | admitEntry m st hpc hp hs =>
    show Function.update s.phases m .admitted n = .stopped
    rw [Function.update_of_ne]
    · exact h
    · rintro rfl; rw [hp] at h; cases h
  | shutdown m st all hpc hfree hs => rw [Sys.become_phases, borrowAll_eq m all]; exact h
  | start | hold | giveUp | enqueue | dropPending | tryRequest | attach | dropRequest
  | dropExecution => exact h

/-- An entry number that was handed out and has left the queue. -/
def Spent (id : Nat) (s : Sys) : Prop := id ≤ s.state.nextId ∧ ∀ e ∈ s.state.queued, e.id ≠ id

theorem Spent.step (hl : l.validate = .ok ()) {a : Act} {id : Nat} (hi : Inv l s) (h : Spent id s)
    (hs : step l s a = .next s') : Spent id s' := by
  have hg := (step_effect hs).grows hl hi
  refine ⟨Nat.le_trans h.1 hg.nextId, fun e he => ?_⟩
  rcases hg.queued e he with he | ⟨_, hlt⟩
  · exact h.2 e he
  · have := h.1
    omega

/-- The entry `id` of call `n` has been stopped: it is not running, and wherever it is still
queued it is queued for call `n`. -/
structure StoppedEntry (id n : Nat) (s : Sys) : Prop where
  phase : s.phases n = .stopped
  notRunning : id ∉ s.state.running
  issued : id ≤ s.state.nextId
  owner : ∀ e ∈ s.state.queued, e.id = id → e.phase = n

theorem StoppedEntry.step (hl : l.validate = .ok ()) {a : Act} {id n : Nat} (hi : Inv l s)
    (h : StoppedEntry id n s) (hs : Mcp.step l s a = .next s') : StoppedEntry id n s' := by
  have he := step_effect hs
  have hg := he.grows hl hi
  refine ⟨he.stopped h.phase, fun hr => ?_, Nat.le_trans h.issued hg.nextId, fun e hm hid => ?_⟩
  · rcases he.running hl hi hr with hr | ⟨e, hid, ha⟩
    · exact h.notRunning hr
    · have hp := ha.pending
      rw [h.owner e ha.queued hid, h.phase] at hp
      cases hp
  · rcases hg.queued e hm with hm | ⟨_, hlt⟩
    · exact h.owner e hm hid
    · have := h.issued
      omega

/-- A property kept by every step from a state that satisfies the invariant. -/
theorem Steps.keep {P : Sys → Prop} (hl : l.validate = .ok ())
    (hP : ∀ s a s', Inv l s → P s → step l s a = .next s' → P s') (hi : Inv l s) (h : P s)
    (hs : Lib.Steps (step l) s s') : P s' :=
  (hs.invariant (P := fun s => Inv l s ∧ P s)
    (fun _ _ _ hp hs => ⟨hp.1.step hl hs, hP _ _ _ hp.1 hp.2 hs⟩) ⟨hi, h⟩).2

theorem Effect.others (he : Effect l s o s') {m : Nat} (hm : o ≠ some m) :
    s'.threads m = s.threads m := by
  cases he with
  | env he => rw [he.threads]
  | quiet n q => exact q.others m fun h => hm (by rw [h])
  | start n | enqueue n => exact Function.update_of_ne (fun h => hm (by rw [h])) ..
  | shutdown n st all =>
    rw [Sys.become_other _ _ _ _ fun h => hm (by rw [h]), borrowAll_eq n all]
  | hold n | giveUp n | admitEntry n | dropPending n | tryRequest n =>
    exact Function.update_of_ne (fun h => hm (by rw [h])) ..
  | attach | dropRequest | dropExecution => rfl

/-- A stop reason that is set stays set, on every control that has been created. -/
theorem Effect.reason (he : Effect l s o s') {c : Nat} (hc : c < s.created)
    (h : (s.controls c).inner.reason ≠ 0) : (s'.controls c).inner.reason ≠ 0 := by
  cases he with
  | env he => rw [he.reason c hc]; exact h
  | quiet n q => rw [q.reason c h]; exact h
  | start n d t =>
    show ((s.borrow d n).controls c).inner.reason ≠ 0
    rw [Sys.borrow_inner]; exact h
  | tryRequest n => rw [Sys.become_controls, Sys.release_inner]; exact h
  | shutdown n st all => rw [Sys.become_controls, borrowAll_inner]; exact h
  | hold | giveUp | admitEntry | enqueue | dropPending | attach | dropRequest | dropExecution => exact h

theorem Effect.created (he : Effect l s o s') : s.created ≤ s'.created := by
  cases he with
  | env he => exact he.created
  | quiet n q => rw [q.created]
  | shutdown n st all => rw [Sys.become_created, borrowAll_eq n all]
  | start | hold | giveUp | admitEntry | enqueue | dropPending | tryRequest | attach | dropRequest
  | dropExecution => exact Nat.le_refl _

def Sys.Stopped (s : Sys) (c : Nat) : Prop := (s.controls c).inner.reason ≠ 0

/-- Where the loop of `shutdown` stands, and which of the controls `all` are stopped by then. -/
def SweepAt (s : Sys) (all : List Nat) : Pc → Prop
  | .shutdownNext all' rest => all' = all ∧ rest ⊆ all ∧ ∀ c ∈ all, c ∈ rest ∨ s.Stopped c
  | .shutdownCancel all' c f rest => all' = all ∧ c :: rest ⊆ all ∧
      (f = .exchange .shutdown ∨ s.Stopped c) ∧ ∀ d ∈ all, d = c ∨ d ∈ rest ∨ s.Stopped d
  | .shutdownNotify all' | .shutdownDone all' => all' = all ∧ ∀ c ∈ all, s.Stopped c
  | _ => False

theorem SweepAt.mono {all : List Nat} {pc : Pc} (h : SweepAt s all pc)
    (hs : ∀ c ∈ all, s.Stopped c → s'.Stopped c) : SweepAt s' all pc := by
  cases pc with
  | shutdownNext all' rest => exact ⟨h.1, h.2.1, fun c hc => (h.2.2 c hc).imp_right (hs c hc)⟩
  | shutdownCancel all' c f rest =>
    obtain ⟨h1, h2, h3, h4⟩ := h
    exact ⟨h1, h2, h3.imp_right (hs c (h2 (List.mem_cons_self ..))),
      fun d hd => (h4 d hd).imp_right fun h => h.imp_right (hs d hd)⟩
  | shutdownNotify all' | shutdownDone all' => exact ⟨h.1, fun c hc => hs c hc (h.2 c hc)⟩
  | _ => exact h

/-- Thread `n` is in `shutdown`, after the critical section, with the controls `all` collected. -/
structure Sweep (n : Nat) (all : List Nat) (s : Sys) : Prop where
  created : ∀ c ∈ all, c < s.created
  loop : SweepAt s all (s.threads n).pc

theorem cancelStep_stopped {c : Nat} {f : Cancel} {o : Option Cancel}
    (h : s.cancelStep c f = (s', o)) (hf : f = .exchange .shutdown ∨ s.Stopped c) :
    s'.Stopped c := by
  rcases hf with rfl | hf
  · simp only [Sys.cancelStep, Inner.exchange] at h
    by_cases hr : (s.controls c).inner.reason = 0
    · rw [if_pos hr] at h
      cases h
      simp [Sys.Stopped, Sys.setInner, Sys.setControl]
    · rw [if_neg hr] at h
      cases h
      exact hr
  · have := (Outside.cancelStep h).reason c hf
    rw [Sys.Stopped, this]
    exact hf

theorem cancelStep_mono {c d : Nat} {f : Cancel} {o : Option Cancel}
    (h : s.cancelStep c f = (s', o)) (hd : s.Stopped d) : s'.Stopped d := by
  rw [Sys.Stopped, (Outside.cancelStep h).reason d hd]
  exact hd

/-- One step of the loop of `shutdown`. -/
theorem go_sweep {n : Nat} {all : List Nat} (h : SweepAt s all (s.threads n).pc)
    (hs : s.go l n = .next s') : SweepAt s' all (s'.threads n).pc := by
  cases hpc : (s.threads n).pc with
  | shutdownNext all' rest =>
    rw [hpc] at h
    obtain ⟨rfl, hsub, h⟩ := h
    cases rest with
    | nil =>
      simp only [Sys.go, hpc] at hs
      cases hs
      rw [Sys.become_self]
      exact ⟨rfl, fun c hc => (h c hc).resolve_left (by simp)⟩
    | cons c rest =>
      simp only [Sys.go, hpc] at hs
      cases hs
      rw [Sys.become_self]
      refine ⟨rfl, hsub, .inl rfl, fun d hd => ?_⟩
      rcases h d hd with hm | hm
      · rcases List.mem_cons.mp hm with rfl | hm
        · exact .inl rfl
        · exact .inr (.inl hm)
      · exact .inr (.inr hm)
  | shutdownCancel all' c f rest =>
    rw [hpc] at h
    obtain ⟨rfl, hsub, hf, h⟩ := h
    simp only [Sys.go, hpc] at hs
    split at hs
    · rename_i s₁ f' hstep
      cases hs
      rw [Sys.become_self]
      have hc : s₁.Stopped c := cancelStep_stopped hstep hf
      have hkeep : ∀ d, s.Stopped d → s₁.Stopped d := fun d => cancelStep_mono hstep
      exact ⟨rfl, hsub, .inr hc, fun d hd => (h d hd).imp_right fun h => h.imp_right (hkeep d)⟩
    · rename_i s₁ hstep
      cases hs
      rw [Sys.become_self]
      have hkeep : ∀ d, s₁.Stopped d →
          ((s₁.release c n).become n (.shutdownNext all' rest)).Stopped d := by
        intro d hd
        rw [Sys.Stopped, Sys.become_controls, Sys.release_inner]
        exact hd
      refine ⟨rfl, fun d hd => hsub (List.mem_cons_of_mem _ hd), fun d hd => ?_⟩
      rcases h d hd with rfl | hm | hm
      · exact .inr (hkeep d (cancelStep_stopped hstep hf))
      · exact .inl hm
      · exact .inr (hkeep d (cancelStep_mono hstep hm))
  | shutdownNotify all' =>
    rw [hpc] at h
    simp only [Sys.go, hpc] at hs
    cases hs
    rw [Sys.become_self]
    exact h
  | shutdownDone all' => simp only [Sys.go, hpc] at hs; cases hs
  | _ => rw [hpc] at h; exact h.elim

/-- Inside `shutdown` a thread moves only by its own `go` steps. -/
theorem sweep_mover {n : Nat} {all : List Nat} {a : Act} (h : SweepAt s all (s.threads n).pc)
    (hs : step l s a = .next s') (ha : a.mover = some n) : a = .go n := by
  have hidle : (s.threads n).pc ≠ .idle := by intro hpc; rw [hpc] at h; exact h
  have hasleep : (s.threads n).pc ≠ .asleep := by intro hpc; rw [hpc] at h; exact h
  cases a with
  | go m => cases ha; rfl
  | acquire m p cls c | tryRequest m c | cancel m c r =>
    cases ha
    simp only [step, Sys.start] at hs
    cases hs
  | shutdown m | timeout m | abandon m =>
    cases ha
    simp only [step] at hs
    cases hs
  | _ => cases ha

theorem Sweep.step {n : Nat} {all : List Nat} {a : Act} (h : Sweep n all s)
    (hs : Mcp.step l s a = .next s') : Sweep n all s' := by
  have he := step_effect hs
  refine ⟨fun c hc => Nat.lt_of_lt_of_le (h.created c hc) he.created, ?_⟩
  by_cases ha : a.mover = some n
  · obtain rfl := sweep_mover h.loop hs ha
    exact go_sweep h.loop hs
  · have hstop : ∀ c ∈ all, s.Stopped c → s'.Stopped c :=
      fun c hc => he.reason (h.created c hc)
    rw [he.others ha]
    exact h.loop.mono hstop

theorem become_pc_self (s : Sys) (n : Nat) (pc : Pc) : ((s.become n pc).threads n).pc = pc := by
  rw [Sys.become_self]

/-- Some `go` steps of thread `n` alone lead from `s` to `s'`. -/
abbrev Alone (l : WorkLimits) (n : Nat) (s s' : Sys) : Prop :=
  Lib.Steps (fun s (_ : Unit) => step l s (.go n)) s s'

theorem Alone.steps {n : Nat} (h : Alone l n s s') : Lib.Steps (step l) s s' := by
  induction h with
  | refl => exact .refl
  | tail _ _ hs ih => exact .tail (.go n) ih hs

theorem Alone.of_go {n : Nat} {s₁ : Sys} (h : s.go l n = .next s₁) (hs : Alone l n s₁ s') :
    Alone l n s s' :=
  (Lib.Steps.single () h).trans hs

/-- The callbacks of a control run to the end, whatever the other threads have left behind. -/
theorem cancel_completes {n c : Nat} {all rest : List Nat} (todo : List Nat) :
    ∀ s : Sys, (s.threads n).pc = .shutdownCancel all c (.callback todo) rest →
      ∃ s', Alone l n s s' ∧ (s'.threads n).pc = .shutdownNext all rest := by
  induction todo with
  | nil =>
    intro s hpc
    refine ⟨(s.release c n).become n (.shutdownNext all rest), Lib.Steps.single () ?_, by simp⟩
    simp only [step, Sys.go, hpc, Sys.cancelStep]
  | cons m todo ih =>
    intro s hpc
    let s₁ := (s.stopPhase m).become n (.shutdownCancel all c (.notify todo) rest)
    let s₂ := s₁.notify.become n (.shutdownCancel all c (.callback todo) rest)
    have h₁ : s.go l n = .next s₁ := by simp only [Sys.go, hpc, Sys.cancelStep, s₁]
    have hpc₁ : (s₁.threads n).pc = .shutdownCancel all c (.notify todo) rest := by
      rw [Sys.become_self]
    have h₂ : s₁.go l n = .next s₂ := by simp only [Sys.go, hpc₁, Sys.cancelStep, s₂]
    obtain ⟨s', hs, hpc'⟩ := ih s₂ (by rw [Sys.become_self])
    exact ⟨s', .of_go h₁ (.of_go h₂ hs), hpc'⟩

theorem shutdownCancel_completes {n c : Nat} {all rest : List Nat} {f : Cancel}
    (hpc : (s.threads n).pc = .shutdownCancel all c f rest) :
    ∃ s', Alone l n s s' ∧ (s'.threads n).pc = .shutdownNext all rest := by
  have hlock : ∀ s : Sys, (s.threads n).pc = .shutdownCancel all c .lock rest →
      ∃ s', Alone l n s s' ∧ (s'.threads n).pc = .shutdownNext all rest := by
    intro s hpc
    have h₁ : s.go l n = .next (s.become n (.shutdownCancel all c
        (.callback (s.controls c).inner.cloneCallbacks) rest)) := by
      simp only [Sys.go, hpc, Sys.cancelStep]
    obtain ⟨s', hs, hpc'⟩ := cancel_completes (l := l) _ _ (become_pc_self ..)
    exact ⟨s', .of_go h₁ hs, hpc'⟩
  cases f with
  | exchange r =>
    by_cases hr : (s.controls c).inner.reason = 0
    · have h₁ : s.go l n = .next ((s.setInner c { (s.controls c).inner with reason := r.toU8 }).become n
          (.shutdownCancel all c .lock rest)) := by
        simp only [Sys.go, hpc, Sys.cancelStep, Inner.exchange, if_pos hr]
      obtain ⟨s', hs, hpc'⟩ := hlock _ (become_pc_self ..)
      exact ⟨s', .of_go h₁ hs, hpc'⟩
    · refine ⟨(s.release c n).become n (.shutdownNext all rest), Lib.Steps.single () ?_, by simp⟩
      simp only [step, Sys.go, hpc, Sys.cancelStep, Inner.exchange, if_neg hr]
  | lock => exact hlock s hpc
  | callback todo => exact cancel_completes todo s hpc
  | notify todo =>
    have h₁ : s.go l n = .next (s.notify.become n (.shutdownCancel all c (.callback todo) rest)) := by
      simp only [Sys.go, hpc, Sys.cancelStep]
    obtain ⟨s', hs, hpc'⟩ := cancel_completes (l := l) todo _ (become_pc_self ..)
    exact ⟨s', .of_go h₁ hs, hpc'⟩

theorem shutdownNext_completes {n : Nat} {all : List Nat} (rest : List Nat) :
    ∀ s : Sys, (s.threads n).pc = .shutdownNext all rest →
      ∃ s', Alone l n s s' ∧ (s'.threads n).pc = .shutdownDone all := by
  induction rest with
  | nil =>
    intro s hpc
    have h₁ : s.go l n = .next (s.become n (.shutdownNotify all)) := by simp only [Sys.go, hpc]
    have hpc₁ : ((s.become n (.shutdownNotify all)).threads n).pc = .shutdownNotify all := by
      rw [Sys.become_self]
    refine ⟨(s.become n (.shutdownNotify all)).notify.become n (.shutdownDone all),
      .of_go h₁ (Lib.Steps.single () ?_), by simp⟩
    simp only [step, Sys.go, hpc₁]
  | cons c rest ih =>
    intro s hpc
    have h₁ : s.go l n = .next (s.become n (.shutdownCancel all c (.exchange .shutdown) rest)) := by
      simp only [Sys.go, hpc]
    have hpc₁ : ((s.become n (.shutdownCancel all c (.exchange .shutdown) rest)).threads n).pc =
        .shutdownCancel all c (.exchange .shutdown) rest := by rw [Sys.become_self]
    obtain ⟨s₂, h₂, hpc₂⟩ := shutdownCancel_completes (l := l) hpc₁
    obtain ⟨s₃, h₃, hpc₃⟩ := ih s₂ hpc₂
    exact ⟨s₃, .of_go h₁ (h₂.trans h₃), hpc₃⟩

theorem Sweep.completes {n : Nat} {all : List Nat} (h : Sweep n all s) :
    ∃ s', Alone l n s s' ∧ (s'.threads n).pc = .shutdownDone all := by
  have hloop := h.loop
  cases hpc : (s.threads n).pc with
  | shutdownNext all' rest =>
    rw [hpc] at hloop
    obtain ⟨rfl, _⟩ := hloop
    exact shutdownNext_completes rest s hpc
  | shutdownCancel all' c f rest =>
    rw [hpc] at hloop
    obtain ⟨rfl, _⟩ := hloop
    obtain ⟨s₁, h₁, hpc₁⟩ := shutdownCancel_completes (l := l) hpc
    obtain ⟨s₂, h₂, hpc₂⟩ := shutdownNext_completes (l := l) rest s₁ hpc₁
    exact ⟨s₂, h₁.trans h₂, hpc₂⟩
  | shutdownNotify all' =>
    rw [hpc] at hloop
    obtain ⟨rfl, _⟩ := hloop
    have h₁ : s.go l n = .next (s.notify.become n (.shutdownDone all')) := by simp only [Sys.go, hpc]
    exact ⟨_, Lib.Steps.single () h₁, become_pc_self ..⟩
  | shutdownDone all' =>
    rw [hpc] at hloop
    obtain ⟨rfl, _⟩ := hloop
    exact ⟨s, .refl, hpc⟩
  | _ => rw [hpc] at hloop; exact hloop.elim

/-- The controls that requests, queued entries and running ones refer to. -/
def State.registered (st : State) : List Nat :=
  (st.requests.entries.map Sigma.snd) ++ (st.queued.map Pending.control) ++
    (st.running.entries.map fun e => e.2.control)

/-- The critical section of `shutdown` closes the coordinator and collects every live control. -/
theorem shutdown_step {n : Nat} (hi : Inv l s) (hpc : (s.threads n).pc = .shutdownLock)
    (hs : step l s (.go n) = .next s') :
    s'.state.closed = true ∧ Sweep n (s.state.registered.filter s.alive) s' := by
  simp only [step, Sys.go, hpc] at hs
  obtain ⟨_, hs⟩ := Sys.locked_next hs
  cases hs
  refine ⟨by rw [Sys.become_state, borrowAll_eq]; rfl, ?_, ?_⟩
  · intro c hc
    rw [Sys.become_created, borrowAll_eq]
    by_contra hn
    obtain ⟨h1, h2⟩ := hi.fresh c (Nat.le_of_not_lt hn)
    have := (List.mem_filter.mp hc).2
    simp [Sys.alive, Control.alive, h1, h2] at this
  · rw [Sys.become_self]
    exact ⟨rfl, fun _ h => h, fun _ hc => .inl hc⟩

/-- The entry a step admits, in terms of the queue before the step. -/
theorem admitted_order (hl : l.validate = .ok ()) (hi : Inv l s) {a : Act} {id : Nat}
    (hs : step l s a = .next s') (hnot : id ∉ s.state.running) (hid : id ∈ s'.state.running) :
    ∃ e pre post, s.state.queued = pre ++ e :: post ∧ e.id = id ∧
      s'.state.running.lookup id = some ⟨e.project, e.cls, e.control⟩ ∧
      (s.state.lastProject e.cls = some e.project → ∀ e' ∈ s.state.queued,
        s.state.ready s.phases s.alive e.cls (l.lane e.cls) e' = true → e'.project = e.project) ∧
      ∀ e' ∈ pre, s.state.ready s.phases s.alive e.cls (l.lane e.cls) e' = true →
        s.state.lastProject e.cls = some e'.project ∧
        s.state.lastProject e.cls ≠ some e.project := by
  obtain ⟨e, rfl, ha⟩ := ((step_effect hs).running hl hi hid).resolve_left hnot
  obtain ⟨pre, post, hq⟩ := List.append_of_mem ha.queued
  have hready : ∀ e' ∈ s.state.queued,
      s.state.ready s.phases s.alive e.cls (l.lane e.cls) e' = true →
      Waiting l s.state s.phases e.cls e' :=
    fun e' he' => (ready_iff hi.books he' (hi.alive e' he')).mp
  refine ⟨e, pre, post, hq, rfl, ha.runs, ?_, ?_⟩
  · exact fun hlast e' he' hr => ha.best.rotates hlast e' he' (hready e' he' hr)
  · intro e' he' hr
    have hmem : e' ∈ s.state.queued := by rw [hq]; exact List.mem_append_left _ he'
    have hlt : e'.id < e.id := by
      have hsorted := hi.books.queued_sorted
      rw [hq, List.pairwise_append] at hsorted
      exact hsorted.2.2 e' he' e (List.mem_cons_self ..)
    have hbest := ha.best.earliest e' hmem (hready e' hmem hr)
    constructor
    · by_contra hne
      have := hbest (.inl hne)
      omega
    · intro hlast
      have := hbest (.inr hlast)
      omega

end

/-- The order of admissions and the effect of `shutdown`, along every run:
* an admitted entry is the first in the queue among those the rule may pick, and when its project
  was served last, no entry of another project was ready;
* an entry whose phase was stopped is never running afterwards, and no entry is admitted twice;
* once closed, no step adds a request, an entry or an execution;
* the call of `shutdown` that closes the coordinator can complete by its own steps alone from
  every later state, and once it has returned every control that was registered and alive when it
  took the mutex has a stop reason. -/
theorem admission_and_shutdown (l : WorkLimits) (hl : l.validate = .ok ()) (s : Sys)
    (h : Reachable l s) :
    (∀ a s' id, step l s a = .next s' → id ∉ s.state.running → id ∈ s'.state.running →
      ∃ e pre post, s.state.queued = pre ++ e :: post ∧ e.id = id ∧
        s'.state.running.lookup id = some ⟨e.project, e.cls, e.control⟩ ∧
        (s.state.lastProject e.cls = some e.project → ∀ e' ∈ s.state.queued,
          s.state.ready s.phases s.alive e.cls (l.lane e.cls) e' = true → e'.project = e.project) ∧
        ∀ e' ∈ pre, s.state.ready s.phases s.alive e.cls (l.lane e.cls) e' = true →
          s.state.lastProject e.cls = some e'.project ∧
          s.state.lastProject e.cls ≠ some e.project) ∧
    (∀ e ∈ s.state.queued, s.phases e.phase = .stopped →
      ∀ s', Lib.Steps (step l) s s' → e.id ∉ s'.state.running) ∧
    (∀ a s₁ id, step l s a = .next s₁ → id ∉ s.state.running → id ∈ s₁.state.running →
      ∀ s₂ b s₃, Lib.Steps (step l) s₁ s₂ → step l s₂ b = .next s₃ →
        id ∈ s₃.state.running → id ∈ s₂.state.running) ∧
    (s.state.closed = true → ∀ a s', step l s a = .next s' → s'.state.closed = true ∧
      (∀ x ∈ s'.state.requests.entries, x ∈ s.state.requests.entries) ∧
      (∀ e ∈ s'.state.queued, e ∈ s.state.queued) ∧
      ∀ id ∈ s'.state.running, id ∈ s.state.running) ∧
    ∀ n s₁, (s.threads n).pc = .shutdownLock → step l s (.go n) = .next s₁ →
      s₁.state.closed = true ∧ ∀ s₂, Lib.Steps (step l) s₁ s₂ →
        (∃ all s₃, Alone l n s₂ s₃ ∧ (s₃.threads n).pc = .shutdownDone all) ∧
        ∀ all, (s₂.threads n).pc = .shutdownDone all →
          ∀ c ∈ s.state.registered, s.alive c = true → (s₂.controls c).inner.reason ≠ 0 := by
  have hi := h.inv hl
  refine ⟨fun a s' id hs => admitted_order hl hi hs, ?_, ?_, ?_, ?_⟩
  · intro e he hp s' hs
    have hstopped : StoppedEntry e.id e.phase s :=
      ⟨hp, hi.books.disjoint e he, hi.books.queued_id_le e he,
        fun e' he' hid => hi.owner he' (hid ▸ (hi.queued e he).entry)⟩
    exact (Steps.keep hl (fun _ _ _ hi h hs => h.step hl hi hs) hi hstopped hs).notRunning
  · intro a s₁ id hs hnot hid s₂ b s₃ hs₂ hs₃ hid₃
    obtain ⟨e, rfl, ha⟩ := ((step_effect hs).running hl hi hid).resolve_left hnot
    have hi₁ := hi.step hl hs
    have hspent : Spent e.id s₁ :=
      ⟨Nat.le_trans (hi.books.queued_id_le e ha.queued) ((step_effect hs).grows hl hi).nextId, ha.gone⟩
    have hspent₂ := Steps.keep hl (fun _ _ _ hi h hs => h.step hl hi hs) hi₁ hspent hs₂
    have hi₂ := hs₂.invariant (fun _ _ _ hi hs => hi.step hl hs) hi₁
    rcases (step_effect hs₃).running hl hi₂ hid₃ with hr | ⟨e', hid', ha'⟩
    · exact hr
    · exact absurd hid' (hspent₂.2 e' ha'.queued)
  · intro hclosed a s' hs
    have hg := (step_effect hs).grows hl hi
    refine ⟨hg.closed hclosed, fun x hx => ?_, fun e he => ?_, fun id hid => ?_⟩
    · exact (hg.requests x hx).resolve_right (by simp [hclosed])
    · exact (hg.queued e he).resolve_right (by simp [hclosed])
    · refine ((step_effect hs).running hl hi hid).resolve_right ?_
      rintro ⟨e, _, ha⟩
      have := ha.stillOpen
      rw [hclosed] at this
      cases this
  · intro n s₁ hpc hs
    obtain ⟨hclosed, hsweep⟩ := shutdown_step hi hpc hs
    refine ⟨hclosed, fun s₂ hs₂ => ?_⟩
    have hsweep₂ := hs₂.invariant (fun _ _ _ h hs => h.step hs) hsweep
    obtain ⟨s₃, hs₃, hdone⟩ := hsweep₂.completes (l := l)
    refine ⟨⟨_, s₃, hs₃, hdone⟩, fun all hall c hc halive => ?_⟩
    have hloop := hsweep₂.loop
    rw [hall] at hloop
    exact hloop.2 c (List.mem_filter.mpr ⟨hc, halive⟩)

/-- The calls of thread 0 and thread 1 are queued, then thread 2 shuts the coordinator down. -/
def closing : List Act :=
  [.newControl none, .newControl none, .acquire 0 "p" .native 0, .acquire 1 "q" .native 1] ++
    List.replicate 5 (.go 0) ++ List.replicate 5 (.go 1) ++ [.shutdown 2]

theorem admission_and_shutdown_closing :
    ∃ s s₁, Reachable .default s ∧ step .default s (.go 2) = .next s₁ ∧ s₁.state.closed = true ∧
      ∃ s₂, Lib.Steps (step .default) s₁ s₂ ∧ (s₂.controls 0).inner.reason ≠ 0 ∧
        (s₂.controls 1).inner.reason ≠ 0 := by
  obtain ⟨s, hs, ht⟩ := Lib.steps_of_run (step .default) {} closing
    (fun s => (match (s.threads 2).pc with | .shutdownLock => true | _ => false) &&
      s.holder == none && s.state.registered == [0, 1] && s.alive 0 && s.alive 1)
    (by decide +kernel)
  simp only [Bool.and_eq_true, beq_iff_eq] at ht
  obtain ⟨⟨⟨⟨hpc, hfree⟩, hreg⟩, ha0⟩, ha1⟩ := ht
  have hpc : (s.threads 2).pc = .shutdownLock := by
    cases hp : (s.threads 2).pc with
    | shutdownLock => rfl
    | _ => simp [hp] at hpc
  obtain ⟨s₁, hs₁⟩ : ∃ s₁, step .default s (.go 2) = .next s₁ := by
    simp only [step, Sys.go, hpc, Sys.locked, hfree, if_true]
    exact ⟨_, rfl⟩
  have hall := admission_and_shutdown .default WorkLimits.validate_default s hs
  obtain ⟨hclosed, hlater⟩ := hall.2.2.2.2 2 s₁ hpc hs₁
  obtain ⟨all, s₂, hs₂, hdone⟩ := (hlater s₁ .refl).1
  have hstopped := (hlater s₂ hs₂.steps).2 all hdone
  exact ⟨s, s₁, hs, hs₁, hclosed, s₂, hs₂.steps, hstopped 0 (by simp [hreg]) ha0,
    hstopped 1 (by simp [hreg]) ha1⟩

end Mcp
end CodeSage
