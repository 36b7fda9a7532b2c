import CodeSage.Mcp.Effects
import CodeSage.Mcp.Eligible

/-!
# CodeSage.Mcp.Invariant

The invariant of the coordinator system and its preservation, one lemma for each constructor of
`Effect`. Besides `Books` it says who owns what: a queued entry belongs to one call that still
holds its `PendingLease` and borrows its control, and the call that holds the mutex between
`eligible` and the phase exchange has been picked by the rule.
-/

namespace CodeSage
namespace Mcp

open Protocol

/-- The call that enqueued `e` still waits for it. -/
structure Owned (s : Sys) (e : Pending) : Prop where
  entry : (s.threads e.phase).entry = some e.id
  cls : (s.threads e.phase).cls = e.cls
  control : (s.threads e.phase).control = e.control
  waiting : (s.threads e.phase).pc.waiting = true

theorem Owned.of_thread {s s' : Sys} {e : Pending} (h : Owned s e)
    (ht : s'.threads e.phase = s.threads e.phase) : Owned s' e :=
  ⟨by rw [ht]; exact h.entry, by rw [ht]; exact h.cls, by rw [ht]; exact h.control,
    by rw [ht]; exact h.waiting⟩

structure Inv (l : WorkLimits) (s : Sys) : Prop where
  books : Books l s.state s.leases
  fresh : s.Fresh
  borrowed : ∀ n, (s.threads n).pc.acquiring = true →
    n ∈ (s.controls (s.threads n).control).borrows
  holder : ∀ n, s.holder = some n ↔ (s.threads n).pc = .admitting
  closed : s.state.closed = true → s.holder = none
  picked : ∀ n, (s.threads n).pc = .admitting → ∃ e, (s.threads n).entry = some e.id ∧ e.phase = n ∧
    Admissible l s.state (s.threads n).cls e ∧ Best l s.state s.phases (s.threads n).cls e
  waiting : ∀ n, (s.threads n).pc.waiting = true → ∃ id, (s.threads n).entry = some id
  entry_le : ∀ n id, (s.threads n).entry = some id → id ≤ s.state.nextId
  entry_unique : ∀ n m id, (s.threads n).entry = some id → (s.threads m).entry = some id → n = m
  queued : ∀ e ∈ s.state.queued, Owned s e
  running : ∀ n id, (s.threads n).entry = some id → id ∈ s.state.running → s.phases n = .admitted
  gen_le : ∀ n, (s.threads n).gen ≤ s.notified

theorem Pc.acquiring_of_waiting {pc : Pc} (h : pc.waiting = true) : pc.acquiring = true := by
  cases pc <;> simp_all [Pc.waiting, Pc.acquiring]

section

variable {l : WorkLimits} {s s' : Sys}

/-- The controls of queued entries are alive. -/
theorem Inv.alive (h : Inv l s) : ∀ e ∈ s.state.queued, s.alive e.control = true := by
  intro e he
  have ho := h.queued e he
  have hb := h.borrowed _ (Pc.acquiring_of_waiting ho.waiting)
  rw [ho.control] at hb
  simp only [Sys.alive, Control.alive, Bool.or_eq_true, Bool.not_eq_true']
  right
  cases hbs : (s.controls e.control).borrows with
  | nil => rw [hbs] at hb; cases hb
  | cons _ _ => rfl

theorem Inv.eligible_iff (h : Inv l s) {c : WorkClass} {id : Nat} :
    s.eligible l c = some id ↔ ∃ e, Pick l s.state s.phases c e ∧ e.id = id :=
  Mcp.eligible_iff h.books h.alive

/-- A call owns at most one entry, and nobody else has it. -/
theorem Inv.owner (h : Inv l s) {n : Nat} {e : Pending} (he : e ∈ s.state.queued)
    (hn : (s.threads n).entry = some e.id) : e.phase = n :=
  h.entry_unique _ _ _ (h.queued e he).entry hn

theorem Inv.init (l : WorkLimits) : Inv l {} where
  books := Books.init l
  fresh _ _ := ⟨rfl, rfl⟩
  borrowed _ h := nomatch h
  holder _ := iff_of_false (by simp) (by simp)
  closed _ := rfl
  picked _ h := nomatch h
  waiting _ h := nomatch h
  entry_le _ _ h := nomatch h
  entry_unique _ _ _ h := nomatch h
  queued := by simp
  running _ _ h := nomatch h
  gen_le _ := Nat.le_refl _

theorem Inv.env (h : Inv l s) (he : Env s s') : Inv l s' where
  books := by rw [he.state, he.leases]; exact h.books
  fresh := he.fresh h.fresh
  borrowed n hn := by
    rw [he.threads] at hn ⊢
    have hb := h.borrowed n hn
    by_cases hc : (s.threads n).control < s.created
    · rw [he.borrows _ hc]; exact hb
    · rw [(h.fresh _ (Nat.le_of_not_lt hc)).1] at hb; cases hb
  holder n := by rw [he.holder, he.threads]; exact h.holder n
  closed := by rw [he.state, he.holder]; exact h.closed
  picked n := by rw [he.threads, he.state, he.phases]; exact h.picked n
  waiting n := by rw [he.threads]; exact h.waiting n
  entry_le n := by rw [he.threads, he.state]; exact h.entry_le n
  entry_unique n m := by rw [he.threads]; exact h.entry_unique n m
  queued e hm := by
    rw [he.state] at hm
    exact (h.queued e hm).of_thread (by rw [he.threads])
  running n := by rw [he.threads, he.state, he.phases]; exact h.running n
  gen_le n := by rw [he.threads, he.notified]; exact h.gen_le n

theorem Quiet.thread {n : Nat} (q : Quiet l s s' n) (m : Nat) :
    (s'.threads m).entry = (s.threads m).entry ∧ (s'.threads m).cls = (s.threads m).cls ∧
      (s'.threads m).control = (s.threads m).control := by
  by_cases hm : m = n
  · subst hm
    obtain ⟨g, i, pc, ht, _⟩ := q.call
    rw [ht]
    exact ⟨rfl, rfl, rfl⟩
  · rw [q.others m hm]
    exact ⟨rfl, rfl, rfl⟩

theorem Quiet.pending {n : Nat} (q : Quiet l s s' n) (m : Nat) (h : s'.phases m = .pending) :
    s.phases m = .pending := by
  rcases q.phases with hp | ⟨k, _, hp, _⟩
  · rw [← hp]; exact h
  · rw [hp] at h
    by_cases hk : m = k
    · subst hk; rw [Function.update_self] at h; cases h
    · rw [Function.update_of_ne hk] at h; exact h

theorem Quiet.admitted {n : Nat} (q : Quiet l s s' n) (m : Nat) (h : s.phases m = .admitted) :
    s'.phases m = .admitted := by
  rcases q.phases with hp | ⟨k, hk, hp, _⟩
  · rw [hp]; exact h
  · rw [hp, Function.update_of_ne]
    · exact h
    · rintro rfl; rw [h] at hk; cases hk

theorem Quiet.admitting {n : Nat} (q : Quiet l s s' n) (m : Nat) :
    (s'.threads m).pc = .admitting ↔ (s.threads m).pc = .admitting := by
  by_cases hm : m = n
  · subst hm; exact iff_of_false q.notAdmitting' q.notAdmitting
  · rw [q.others m hm]

theorem Inv.quiet (h : Inv l s) {n : Nat} (q : Quiet l s s' n) : Inv l s' where
  books := by rw [q.state, q.leases]; exact h.books
  fresh c hc := by
    rw [q.created] at hc
    obtain ⟨h1, h2⟩ := h.fresh c hc
    exact ⟨q.unused c h1, by rw [q.handles]; exact h2⟩
  borrowed m hm := by
    rw [(q.thread m).2.2]
    have hacq : (s.threads m).pc.acquiring = true := by
      by_cases he : m = n
      · subst he; exact q.acquiring hm
      · rw [q.others m he] at hm; exact hm
    rcases q.borrows _ m (h.borrowed m hacq) with hb | ⟨rfl, hb⟩
    · exact hb
    · rw [hb] at hm; cases hm
  holder m := by rw [q.holder, q.admitting]; exact h.holder m
  closed := by rw [q.state, q.holder]; exact h.closed
  picked m hm := by
    obtain ⟨e, h1, h2, h3, h4⟩ := h.picked m ((q.admitting m).mp hm)
    rw [(q.thread m).1, (q.thread m).2.1, q.state]
    exact ⟨e, h1, h2, h3, h4.mono q.pending⟩
  waiting m hm := by
    rw [(q.thread m).1]
    by_cases he : m = n
    · subst he; rw [q.waiting] at hm; exact h.waiting m hm
    · rw [q.others m he] at hm; exact h.waiting m hm
  entry_le m := by rw [(q.thread m).1, q.state]; exact h.entry_le m
  entry_unique m k := by rw [(q.thread m).1, (q.thread k).1]; exact h.entry_unique m k
  queued e he := by
    rw [q.state] at he
    obtain ⟨h1, h2, h3, h4⟩ := h.queued e he
    refine ⟨by rw [(q.thread _).1]; exact h1, by rw [(q.thread _).2.1]; exact h2,
      by rw [(q.thread _).2.2]; exact h3, ?_⟩
    by_cases hn : e.phase = n
    · rw [hn] at h4 ⊢; rw [q.waiting]; exact h4
    · rw [q.others _ hn]; exact h4
  running m id hm hr := by
    rw [(q.thread m).1] at hm
    rw [q.state] at hr
    exact q.admitted m (h.running m id hm hr)
  gen_le m := by
    have hle : s.notified ≤ s'.notified := by
      rcases q.notified with hn | hn <;> omega
    by_cases he : m = n
    · subst he
      obtain ⟨g, i, pc, ht, hg⟩ := q.call
      rw [ht]
      have := h.gen_le m
      rcases hg with rfl | rfl
      · exact Nat.le_trans this hle
      · exact hle
    · rw [q.others m he]; exact Nat.le_trans (h.gen_le m) hle

theorem Inv.start (h : Inv l s) {n c : Nat} {t : Thread} (hidle : (s.threads n).pc = .idle)
    (hc : 0 < (s.controls c).handles) (hcontrol : t.control = c) (hentry : t.entry = none)
    (hgen : t.gen = 0) (hpc : t.pc ≠ .asleep ∧ t.pc ≠ .admitting)
    (hwaiting : t.pc.waiting = false) :
    Inv l { s.borrow c n with threads := Function.update s.threads n t } := by
  have hcreated : c < s.created := by
    by_contra hn
    rw [(h.fresh c (Nat.le_of_not_lt hn)).2] at hc
    cases hc
  have hother : ∀ m, m ≠ n → Function.update s.threads n t m = s.threads m :=
    fun m hm => Function.update_of_ne hm ..
  have hself : Function.update s.threads n t n = t := Function.update_self ..
  have hentries : ∀ m id, (Function.update s.threads n t m).entry = some id →
      (s.threads m).entry = some id := by
    intro m id hm
    by_cases he : m = n
    · subst he; rw [hself, hentry] at hm; cases hm
    · rw [hother m he] at hm; exact hm
  have hadmitting : ∀ m, (Function.update s.threads n t m).pc = .admitting ↔
      (s.threads m).pc = .admitting := by
    intro m
    by_cases he : m = n
    · subst he
      rw [hself]
      exact iff_of_false hpc.2 (by rw [hidle]; simp)
    · rw [hother m he]
  refine ⟨h.books, ?_, ?_, ?_, h.closed, ?_, ?_, ?_, ?_, ?_, ?_, ?_⟩
  · intro d hd
    have hd' : s.created ≤ d := hd
    have hne : d ≠ c := by omega
    show ((s.borrow c n).controls d).borrows = [] ∧ ((s.borrow c n).controls d).handles = 0
    rw [Sys.borrow_borrows, if_neg hne, Sys.borrow_handles]
    exact h.fresh d hd'
  · intro m hm
    dsimp only at hm ⊢
    rw [Sys.borrow_borrows]
    by_cases he : m = n
    · subst he
      rw [hself, if_pos hcontrol]
      exact List.mem_cons_self ..
    · rw [hother m he] at hm ⊢
      have := h.borrowed m hm
      split
      · exact List.mem_cons_of_mem _ this
      · exact this
  · intro m
    exact (h.holder m).trans (hadmitting m).symm
  · intro m hm
    have hm' := (hadmitting m).mp hm
    have he : m ≠ n := by rintro rfl; rw [hidle] at hm'; cases hm'
    dsimp only
    rw [hother m he]
    exact h.picked m hm'
  · intro m hm
    dsimp only at hm ⊢
    by_cases he : m = n
    · subst he; rw [hself, hwaiting] at hm; cases hm
    · rw [hother m he] at hm ⊢; exact h.waiting m hm
  · exact fun m id hm => h.entry_le m id (hentries m id hm)
  · exact fun m k id hm hk => h.entry_unique m k id (hentries m id hm) (hentries k id hk)
  · intro e he
    have ho := h.queued e he
    have hw := ho.waiting
    exact ho.of_thread (hother _ fun hn => by rw [hn, hidle] at hw; cases hw)
  · exact fun m id hm hr => h.running m id (hentries m id hm) hr
  · intro m
    dsimp only
    by_cases he : m = n
    · subst he; rw [hself, hgen]; exact Nat.zero_le _
    · rw [hother m he]; exact h.gen_le m

/-- A thread that only changes its program counter keeps its call. -/
theorem become_call (s : Sys) (n : Nat) (pc : Pc) (m : Nat) :
    ((s.become n pc).threads m).entry = (s.threads m).entry ∧
      ((s.become n pc).threads m).cls = (s.threads m).cls ∧
      ((s.become n pc).threads m).control = (s.threads m).control ∧
      ((s.become n pc).threads m).gen = (s.threads m).gen := by
  by_cases hm : m = n
  · subst hm; rw [Sys.become_self]; exact ⟨rfl, rfl, rfl, rfl⟩
  · rw [Sys.become_other _ _ _ _ hm]; exact ⟨rfl, rfl, rfl, rfl⟩

theorem become_pc (s : Sys) (n : Nat) (pc : Pc) (m : Nat) :
    ((s.become n pc).threads m).pc = if m = n then pc else (s.threads m).pc := by
  split
  · rename_i hm; subst hm; rw [Sys.become_self]
  · rename_i hm; rw [Sys.become_other _ _ _ _ hm]

/-- The part of the invariant that is about the calls, for a critical section of thread `n`. What
the section does to the state stays to be shown. -/
theorem Inv.of_become (h : Inv l s) {n : Nat} {pc' : Pc} (ht : s'.threads = (s.become n pc').threads)
    (hacq : pc'.acquiring = true → (s.threads n).pc.acquiring = true)
    (hwaiting : pc'.waiting = true → (s.threads n).pc.waiting = true)
    (hborrows : ∀ m c, m ∈ (s.controls c).borrows →
      m ∈ (s'.controls c).borrows ∨ m = n ∧ pc'.acquiring = false)
    (hnotified : s.notified ≤ s'.notified) (hnext : s.state.nextId ≤ s'.state.nextId)
    (books : Books l s'.state s'.leases) (fresh : s'.Fresh)
    (holder : ∀ m, s'.holder = some m ↔ ((s.become n pc').threads m).pc = .admitting)
    (closed : s'.state.closed = true → s'.holder = none)
    (picked : ∀ m, ((s.become n pc').threads m).pc = .admitting →
      ∃ e, (s.threads m).entry = some e.id ∧ e.phase = m ∧
        Admissible l s'.state (s.threads m).cls e ∧ Best l s'.state s'.phases (s.threads m).cls e)
    (queued : ∀ e ∈ s'.state.queued, e ∈ s.state.queued ∧ (e.phase = n → pc'.waiting = true))
    (running : ∀ m id, (s.threads m).entry = some id → id ∈ s'.state.running →
      s'.phases m = .admitted) : Inv l s' := by
  have hcall := become_call s n pc'
  refine ⟨books, fresh, ?_, ?_, closed, ?_, ?_, ?_, ?_, ?_, ?_, ?_⟩
  · intro m hm
    rw [ht, become_pc] at hm
    rw [ht, (hcall m).2.2.1]
    split at hm
    · rename_i he
      subst he
      rcases hborrows m _ (h.borrowed m (hacq hm)) with hb | ⟨_, hb⟩
      · exact hb
      · rw [hb] at hm; cases hm
    · rename_i he
      rcases hborrows m _ (h.borrowed m hm) with hb | ⟨hb, _⟩
      · exact hb
      · exact absurd hb he
  · intro m; rw [ht]; exact holder m
  · intro m hm
    rw [ht] at hm ⊢
    rw [(hcall m).1, (hcall m).2.1]
    exact picked m hm
  · intro m hm
    rw [ht, become_pc] at hm
    rw [ht, (hcall m).1]
    split at hm
    · rename_i he; subst he; exact h.waiting m (hwaiting hm)
    · exact h.waiting m hm
  · intro m id hm
    rw [ht, (hcall m).1] at hm
    exact Nat.le_trans (h.entry_le m id hm) hnext
  · intro m k id hm hk
    rw [ht, (hcall m).1] at hm
    rw [ht, (hcall k).1] at hk
    exact h.entry_unique m k id hm hk
  · intro e he
    obtain ⟨hmem, hn⟩ := queued e he
    have ho := h.queued e hmem
    refine ⟨by rw [ht, (hcall _).1]; exact ho.entry, by rw [ht, (hcall _).2.1]; exact ho.cls,
      by rw [ht, (hcall _).2.2.1]; exact ho.control, ?_⟩
    rw [ht, become_pc]
    split
    · rename_i hp; exact hn hp
    · exact ho.waiting
  · intro m id hm hr
    rw [ht, (hcall m).1] at hm
    exact running m id hm hr
  · intro m
    rw [ht, (hcall m).2.2.2]
    exact Nat.le_trans (h.gen_le m) hnotified

/-- No thread is between `eligible` and the exchange while the mutex is free. -/
theorem Inv.not_admitting (h : Inv l s) (hfree : s.holder = none) (m : Nat) :
    (s.threads m).pc ≠ .admitting := by
  intro hm
  rw [(h.holder m).mpr hm] at hfree
  cases hfree

theorem Inv.hold (h : Inv l s) {n : Nat} (hpc : (s.threads n).pc = .lock) (hfree : s.holder = none)
    (hopen : s.state.closed = false) (he : s.eligible l (s.threads n).cls = (s.threads n).entry) :
    Inv l ({ s with holder := some n }.become n .admitting) := by
  obtain ⟨id, hid⟩ := h.waiting n (by rw [hpc]; rfl)
  rw [hid] at he
  obtain ⟨e, hp, rfl⟩ := h.eligible_iff.mp he
  refine h.of_become rfl (fun _ => by rw [hpc]; rfl) (fun _ => by rw [hpc]; rfl)
    (fun _ _ hm => .inl hm) (Nat.le_refl _) (Nat.le_refl _) h.books h.fresh ?_ ?_ ?_ ?_ h.running
  · intro m
    rw [become_pc]
    show some n = some m ↔ _
    split
    · rename_i hm; subst hm; simp
    · rename_i hm
      exact iff_of_false (by simpa using Ne.symm hm) (h.not_admitting hfree m)
  · intro hc
    have hc' : s.state.closed = true := hc
    rw [hopen] at hc'; cases hc'
  · intro m hm
    rw [become_pc] at hm
    split at hm
    · rename_i hmn
      subst hmn
      exact ⟨e, hid, h.owner hp.mem hid, hp.admissible h.books, hp.best⟩
    · exact absurd hm (h.not_admitting hfree m)
  · exact fun e' he' => ⟨he', fun _ => rfl⟩

theorem Inv.unique_holder (h : Inv l s) {n m : Nat} (hn : (s.threads n).pc = .admitting)
    (hm : (s.threads m).pc = .admitting) : m = n := by
  have h1 := (h.holder n).mpr hn
  have h2 := (h.holder m).mpr hm
  rw [h1] at h2
  exact (Option.some.inj h2).symm

/-- When the thread that holds the mutex gives it back, nobody holds it. -/
theorem Inv.holder_free (h : Inv l s) {n : Nat} (pc' : Pc) (hpc : (s.threads n).pc = .admitting)
    (hpc' : pc' ≠ .admitting) (m : Nat) : ((s.become n pc').threads m).pc ≠ .admitting := by
  rw [become_pc]
  split
  · exact hpc'
  · rename_i hm; exact fun ha => hm (h.unique_holder hpc ha)

theorem Inv.giveUp (h : Inv l s) {n : Nat} (hpc : (s.threads n).pc = .admitting) :
    Inv l ({ s with holder := none }.become n .enable) := by
  have hfree := h.holder_free .enable hpc (by simp)
  refine h.of_become rfl (fun _ => by rw [hpc]; rfl) (fun _ => by rw [hpc]; rfl)
    (fun _ _ hm => .inl hm) (Nat.le_refl _) (Nat.le_refl _) h.books h.fresh ?_ (fun _ => rfl) ?_ ?_
    h.running
  · exact fun m => iff_of_false (by simp) (hfree m)
  · exact fun m hm => absurd hm (hfree m)
  · exact fun e he => ⟨he, fun _ => rfl⟩

theorem Inv.admitEntry (h : Inv l s) {n : Nat} {st : State} (hpc : (s.threads n).pc = .admitting)
    (hs : s.state.admitEntry (s.threads n).cls ((s.threads n).entry.getD 0) = some st) :
    Inv l (({ s with
      state := st
      holder := none
      phases := Function.update s.phases n .admitted }.notify).become n
        (.dropPending (some (.ok ())))) := by
  obtain ⟨e, hid, hn, ha, _⟩ := h.picked n hpc
  have hfree := h.holder_free (.dropPending (some (.ok ()))) hpc (by simp)
  rw [hid] at hs
  have hbooks : Books l st s.leases := h.books.admitEntry ha hs
  have hst := (admitEntry_eq h.books ha).symm.trans hs
  rw [Option.some.injEq] at hst
  refine h.of_become rfl (fun _ => by rw [hpc]; rfl) (fun _ => by rw [hpc]; rfl)
    (fun _ _ hm => .inl hm) (Nat.le_succ _) ?_ hbooks h.fresh ?_ (fun _ => rfl) ?_ ?_ ?_
  · show s.state.nextId ≤ st.nextId
    rw [← hst]
  · exact fun m => iff_of_false (by simp) (hfree m)
  · exact fun m hm => absurd hm (hfree m)
  · intro e' he'
    have he' : e' ∈ st.queued := he'
    rw [← hst] at he'
    exact ⟨List.eraseP_sublist.subset he', fun _ => rfl⟩
  · intro m i hm hr
    have hr : i ∈ st.running := hr
    show Function.update s.phases n .admitted m = .admitted
    by_cases hmn : m = n
    · subst hmn; rw [Function.update_self]
    · rw [Function.update_of_ne hmn]
      rw [← hst] at hr
      rcases (AList.mem_insert _).mp hr with rfl | hr
      · exact absurd (h.entry_unique m n _ hm hid) hmn
      · exact h.running m i hm hr

theorem Inv.enqueue (h : Inv l s) {n id : Nat} {st : State} (hpc : (s.threads n).pc = .enqueue)
    (hfree : s.holder = none)
    (hs : s.state.enqueue l (s.threads n).project (s.threads n).cls (s.threads n).control n =
      .ok (id, st)) :
    Inv l { s with
      state := st
      threads := Function.update s.threads n { s.threads n with entry := some id, pc := .enable } } := by
  obtain ⟨hopen, _, _, hid, hst⟩ := enqueue_ok hs
  have hself : Function.update s.threads n { s.threads n with entry := some id, pc := .enable } n =
      { s.threads n with entry := some id, pc := .enable } := Function.update_self ..
  have hother : ∀ m, m ≠ n → Function.update s.threads n
      { s.threads n with entry := some id, pc := .enable } m = s.threads m :=
    fun m hm => Function.update_of_ne hm ..
  -- the number is new, so no other call and nothing running has it
  have hentry : ∀ m i, (Function.update s.threads n
      { s.threads n with entry := some id, pc := .enable } m).entry = some i →
      m = n ∧ i = id ∨ m ≠ n ∧ (s.threads m).entry = some i ∧ i < id := by
    intro m i hm
    by_cases he : m = n
    · subst he
      rw [hself] at hm
      exact .inl ⟨rfl, (Option.some.inj hm).symm⟩
    · rw [hother m he] at hm
      have := h.entry_le m i hm
      exact .inr ⟨he, hm, by omega⟩
  have hnot : ∀ m, (Function.update s.threads n
      { s.threads n with entry := some id, pc := .enable } m).pc ≠ .admitting := by
    intro m
    by_cases he : m = n
    · subst he; rw [hself]; simp
    · rw [hother m he]; exact h.not_admitting hfree m
  refine ⟨h.books.enqueue hs, h.fresh, ?_, ?_, ?_, ?_, ?_, ?_, ?_, ?_, ?_, ?_⟩
  · intro m hm
    dsimp only at hm ⊢
    by_cases he : m = n
    · subst he; rw [hself]; exact h.borrowed m (by rw [hpc]; rfl)
    · rw [hother m he] at hm ⊢; exact h.borrowed m hm
  · intro m
    refine iff_of_false ?_ (hnot m)
    show ¬ s.holder = some m
    rw [hfree]; simp
  · exact fun _ => hfree
  · exact fun m hm => absurd hm (hnot m)
  · intro m hm
    dsimp only at hm ⊢
    by_cases he : m = n
    · subst he; rw [hself]; exact ⟨id, rfl⟩
    · rw [hother m he] at hm ⊢; exact h.waiting m hm
  · intro m i hm
    show i ≤ st.nextId
    rw [hst]
    rcases hentry m i hm with ⟨_, hi⟩ | ⟨_, _, hi⟩ <;> simp only <;> omega
  · intro m k i hm hk
    rcases hentry m i hm with ⟨rfl, hi⟩ | ⟨_, hm', hi⟩
    · rcases hentry k i hk with ⟨rfl, _⟩ | ⟨_, _, hi'⟩
      · rfl
      · omega
    · rcases hentry k i hk with ⟨_, hi'⟩ | ⟨_, hk', _⟩
      · omega
      · exact h.entry_unique m k i hm' hk'
  · intro e he
    have he : e ∈ st.queued := he
    rw [hst] at he
    rcases List.mem_append.mp he with he | he
    · have ho := h.queued e he
      have hw := ho.waiting
      exact ho.of_thread (hother _ fun hn => by rw [hn, hpc] at hw; cases hw)
    · rw [List.mem_singleton.mp he]
      exact ⟨by dsimp only; rw [hself], by dsimp only; rw [hself], by dsimp only; rw [hself],
        by dsimp only; rw [hself]; rfl⟩
  · intro m i hm hr
    have hr : i ∈ st.running := hr
    rw [hst] at hr
    have hr : i ∈ s.state.running := hr
    rcases hentry m i hm with ⟨_, hi⟩ | ⟨_, hm', _⟩
    · have := h.books.running_id_le i hr
      omega
    · exact h.running m i hm' hr
  · intro m
    dsimp only
    by_cases he : m = n
    · subst he; rw [hself]; exact h.gen_le m
    · rw [hother m he]; exact h.gen_le m

/-- The thread that leaves a critical section of the free mutex does not hold it. -/
theorem Inv.stays_free (h : Inv l s) {n : Nat} (pc' : Pc) (hfree : s.holder = none)
    (hpc' : pc' ≠ .admitting) (m : Nat) : ((s.become n pc').threads m).pc ≠ .admitting := by
  rw [become_pc]
  split
  · exact hpc'
  · exact h.not_admitting hfree m

theorem Inv.dropPending (h : Inv l s) {n : Nat} {r : Reply} {st : State}
    (hpc : (s.threads n).pc = .dropPending r) (hfree : s.holder = none)
    (hs : s.state.dropPending ((s.threads n).entry.getD 0) = some st) :
    Inv l (({ s with state := st }.notify).become n (.unregister r)) := by
  have hnot := h.stays_free (n := n) (.unregister r) hfree (by simp)
  obtain ⟨id, hid⟩ := h.waiting n (by rw [hpc]; rfl)
  rw [hid] at hs
  obtain ⟨st', hs', hst, hbooks⟩ := h.books.dropPending id
  obtain rfl : st' = st := by
    have hs : s.state.dropPending id = some st := hs
    rw [hs'] at hs; exact Option.some.inj hs
  refine h.of_become rfl (fun _ => by rw [hpc]; rfl) (fun hw => nomatch hw)
    (fun _ _ hm => .inl hm) (Nat.le_succ _) ?_ hbooks h.fresh ?_ (fun _ => hfree) ?_ ?_ ?_
  · show s.state.nextId ≤ st'.nextId
    rw [hst]
  · refine fun m => iff_of_false ?_ (hnot m)
    show ¬ s.holder = some m
    rw [hfree]; simp
  · exact fun m hm => absurd hm (hnot m)
  · intro e he
    have he : e ∈ st'.queued := he
    rw [hst] at he
    have hmem := List.eraseP_sublist.subset he
    refine ⟨hmem, fun hn => ?_⟩
    -- an entry of thread `n` would have the number just erased
    have ho := (h.queued e hmem).entry
    rw [hn, hid, Option.some.injEq] at ho
    cases hf : s.state.queued.find? fun e => e.id = id with
    | none =>
      have := List.find?_eq_none.mp hf e hmem
      simp [ho] at this
    | some e' => exact absurd ho.symm (h.books.erased hf he)
  · intro m i hm hr
    have hr : i ∈ st'.running := hr
    rw [hst] at hr
    exact h.running m i hm hr

theorem Inv.tryRequest (h : Inv l s) {n id : Nat} {st : State}
    (hpc : (s.threads n).pc = .requestLock) (hfree : s.holder = none)
    (hs : s.state.tryRequest l (s.threads n).control = .ok (id, st)) :
    Inv l (({ s with state := st, leases := { id } :: s.leases }.release
      (s.threads n).control n).become n (.requested (.ok ()))) := by
  obtain ⟨_, _, hid, hst⟩ := tryRequest_ok hs
  have hnot := h.stays_free (n := n) (.requested (.ok ())) hfree (by simp)
  refine h.of_become rfl (fun ha => nomatch ha) (fun hw => nomatch hw) ?_ (Nat.le_refl _) ?_
    (h.books.tryRequest hs) ?_ ?_ (fun _ => hfree) ?_ ?_ ?_
  · intro m c hm
    by_cases hmn : m = n
    · exact .inr ⟨hmn, rfl⟩
    · exact .inl (Sys.release_borrows _ _ _ _ _ hmn hm)
  · show s.state.nextId ≤ st.nextId
    rw [hst]; simp only; omega
  · intro c hc
    obtain ⟨h1, h2⟩ := h.fresh c hc
    exact ⟨Sys.release_unused _ _ _ _ h1, (Sys.release_handles _ _ _ _).trans h2⟩
  · refine fun m => iff_of_false ?_ (hnot m)
    show ¬ s.holder = some m
    rw [hfree]; simp
  · exact fun m hm => absurd hm (hnot m)
  · intro e he
    have he : e ∈ st.queued := he
    rw [hst] at he
    refine ⟨he, fun hn => ?_⟩
    have hw := (h.queued e he).waiting
    rw [hn, hpc] at hw
    cases hw
  · intro m i hm hr
    have hr : i ∈ st.running := hr
    rw [hst] at hr
    exact h.running m i hm hr

theorem Inv.shutdown (h : Inv l s) {n : Nat} {st : State} {all : List Nat}
    (hpc : (s.threads n).pc = .shutdownLock) (hfree : s.holder = none)
    (hs : s.state.shutdown s.alive = (st, all)) :
    Inv l (({ s with state := st }.borrowAll n all).become n (.shutdownNext all all)) := by
  have hst : st = { s.state with closed := true } := (congrArg Prod.fst hs).symm
  have hbooks : Books l st s.leases := by
    have := h.books.shutdown s.alive
    rw [hs] at this
    exact this
  have halive : ∀ c ∈ all, s.alive c = true := by
    intro c hc
    have hall : (s.state.shutdown s.alive).2 = all := by rw [hs]
    rw [← hall] at hc
    exact (List.mem_filter.mp hc).2
  have hnot := h.stays_free (n := n) (.shutdownNext all all) hfree (by simp)
  have heq := borrowAll_eq n all { s with state := st }
  have ht : (({ s with state := st }.borrowAll n all).become n (.shutdownNext all all)).threads =
      (s.become n (.shutdownNext all all)).threads := by rw [heq]; rfl
  refine h.of_become ht (fun ha => nomatch ha) (fun hw => nomatch hw)
    (fun m c hm => .inl (borrowAll_mem n all { s with state := st } hm))
    (by rw [heq]; exact Nat.le_refl _) (by rw [heq, hst]; exact Nat.le_refl _) (by rw [heq]; exact hbooks)
    ?_ ?_ (by rw [heq]; exact fun _ => hfree) ?_ ?_ ?_
  · intro c hc
    have hc : s.created ≤ c := by rw [heq] at hc; exact hc
    have hdead : c ∉ all := by
      intro hm
      have := halive c hm
      obtain ⟨h1, h2⟩ := h.fresh c hc
      simp [Sys.alive, Control.alive, h1, h2] at this
    rw [Sys.become_controls, borrowAll_other n all hdead]
    exact h.fresh c hc
  · refine fun m => iff_of_false ?_ (hnot m)
    rw [heq]
    show ¬ s.holder = some m
    rw [hfree]; simp
  · exact fun m hm => absurd hm (hnot m)
  · intro e he
    have he : e ∈ s.state.queued := by rw [heq, hst] at he; exact he
    refine ⟨he, fun hn => ?_⟩
    have hw := (h.queued e he).waiting
    rw [hn, hpc] at hw
    cases hw
  · intro m i hm hr
    rw [heq, hst] at hr
    rw [heq]
    exact h.running m i hm hr

/-- A critical section of no call: dropping a lease, or attaching it to a project. -/
theorem Inv.of_state (h : Inv l s) {st : State} {leases : List RequestLease} {executions : List Nat}
    {notified : Nat} (hfree : s.holder = none) (hbooks : Books l st leases)
    (hnext : st.nextId = s.state.nextId) (hqueued : st.queued = s.state.queued)
    (hrunning : ∀ i ∈ st.running, i ∈ s.state.running) (hnotified : s.notified ≤ notified) :
    Inv l { s with state := st, leases := leases, executions := executions, notified := notified } where
  books := hbooks
  fresh := h.fresh
  borrowed := h.borrowed
  holder := h.holder
  closed _ := hfree
  picked n hn := absurd hn (h.not_admitting hfree n)
  waiting := h.waiting
  entry_le n id hn := by
    show id ≤ st.nextId
    rw [hnext]; exact h.entry_le n id hn
  entry_unique := h.entry_unique
  queued e he := by
    have he : e ∈ st.queued := he
    rw [hqueued] at he
    exact (h.queued e he).of_thread rfl
  running n id hn hr := h.running n id hn (hrunning id hr)
  gen_le n := Nat.le_trans (h.gen_le n) hnotified

theorem Inv.effect (hl : l.validate = .ok ()) {o : Option Nat} (h : Inv l s) (he : Effect l s o s') : Inv l s' := by
  cases he with
  | env he => exact h.env he
  | start n c t hidle hc hcontrol hentry hgen hpc hwaiting =>
    exact h.start hidle hc hcontrol hentry hgen hpc hwaiting
  | quiet n q => exact h.quiet q
  | hold n hpc hfree hopen he => exact h.hold hpc hfree hopen he
  | giveUp n hpc hp => exact h.giveUp hpc
  | admitEntry n st hpc hp hs => exact h.admitEntry hpc hs
  | enqueue n id st hpc hfree hs => exact h.enqueue hpc hfree hs
  | dropPending n r st hpc hfree hs => exact h.dropPending hpc hfree hs
  | tryRequest n id st hpc hfree hs => exact h.tryRequest hpc hfree hs
  | shutdown n st all hpc hfree hs => exact h.shutdown hpc hfree hs
  | attach id project st hfree hr hs =>
    have hst := (attachProject_ok (WorkLimits.validate_ok hl).1 hs).2.2
    exact h.of_state hfree (h.books.attachProject (WorkLimits.validate_ok hl).1 hr hs)
      (by rw [hst]) (by rw [hst]) (by rw [hst]; exact fun _ hi => hi) (Nat.le_refl _)
  | dropRequest id r st hfree hr hs =>
    obtain ⟨st', hs', hst, hbooks⟩ := h.books.dropRequest hr
    obtain rfl : st' = st := by rw [hs'] at hs; exact Option.some.inj hs
    exact h.of_state hfree hbooks (by rw [hst]) (by rw [hst]) (by rw [hst]; exact fun _ hi => hi)
      (Nat.le_refl _)
  | dropExecution id st hfree hs =>
    obtain ⟨st', hs', hst, hbooks⟩ := h.books.dropExecution id
    obtain rfl : st' = st := by rw [hs'] at hs; exact Option.some.inj hs
    exact h.of_state hfree hbooks (by rw [hst]) (by rw [hst])
      (by rw [hst]; exact fun _ hi => (AList.mem_erase.mp hi).2) (Nat.le_succ _)

theorem Inv.step (hl : l.validate = .ok ()) {a : Act} (h : Inv l s)
    (hs : Mcp.step l s a = .next s') : Inv l s' :=
  h.effect hl (step_effect hs)

theorem Reachable.inv (hl : l.validate = .ok ()) (h : Reachable l s) : Inv l s :=
  h.invariant (fun _ _ _ hi hs => hi.step hl hs) (Inv.init l)

theorem Sys.locked_panicked {k : Lib.Outcome Sys} (h : s.locked k = .panicked) : k = .panicked := by
  simp only [Sys.locked] at h
  split at h
  · exact h
  · cases h

theorem Sys.panicOr_panicked {o : Option State} {k : State → Sys}
    (h : Sys.panicOr o k = .panicked) : o = none := by
  cases o with
  | none => rfl
  | some st => cases h

/-- A call can panic in two places only: while it admits, and while it drops its entry. -/
theorem go_panicked {n : Nat} (h : s.go l n = .panicked) :
    ((s.threads n).pc = .admitting ∧
      s.state.admitEntry (s.threads n).cls ((s.threads n).entry.getD 0) = none) ∨
    s.state.dropPending ((s.threads n).entry.getD 0) = none := by
  cases hpc : (s.threads n).pc with
  | admitting =>
    unfold Sys.go at h
    simp only [hpc] at h
    split at h
    · exact .inl ⟨rfl, Sys.panicOr_panicked h⟩
    · cases h
  | dropPending r =>
    unfold Sys.go at h
    simp only [hpc] at h
    exact .inr (Sys.panicOr_panicked (Sys.locked_panicked h))
  | enqueue =>
    unfold Sys.go at h
    simp only [hpc] at h
    have h := Sys.locked_panicked h
    split at h <;> cases h
  | lock =>
    unfold Sys.go at h
    simp only [hpc] at h
    have h := Sys.locked_panicked h
    split at h
    · cases h
    · split at h <;> cases h
  | requestLock =>
    unfold Sys.go at h
    simp only [hpc] at h
    have h := Sys.locked_panicked h
    split at h <;> cases h
  | shutdownLock =>
    unfold Sys.go at h
    simp only [hpc] at h
    cases Sys.locked_panicked h
  | shutdownNext all rest => cases rest <;> simp only [Sys.go, hpc] at h <;> cases h
  | acquireCheck k | loopCheck k | requestCheck k | timeout k | cancel k | registerLock | asleep =>
    unfold Sys.go at h
    simp only [hpc] at h
    split at h <;> cases h
  | shutdownCancel all c f rest =>
    unfold Sys.go at h
    simp only [hpc] at h
    split at h <;> cases h
  | idle | register | callback | callbackNotify | enable | unregister r | finished r | requested r
  | cancelled | shutdownNotify all | shutdownDone all =>
    unfold Sys.go at h
    simp only [hpc] at h
    cases h

theorem Inv.no_panic (h : Inv l s) (a : Act) : Mcp.step l s a ≠ .panicked := by
  intro hp
  cases a with
  | go n =>
    rcases go_panicked hp with ⟨hpc, hs⟩ | hs
    · obtain ⟨e, hid, _, ha, _⟩ := h.picked n hpc
      rw [hid] at hs
      have := (admitEntry_eq h.books ha).symm.trans hs
      cases this
    · obtain ⟨st, hs', _⟩ := h.books.dropPending ((s.threads n).entry.getD 0)
      rw [hs] at hs'
      cases hs'
  | dropRequest id =>
    simp only [Mcp.step] at hp
    split at hp
    · rename_i r hr
      obtain ⟨st, hs', _⟩ := h.books.dropRequest hr
      rw [Sys.panicOr_panicked (Sys.locked_panicked hp)] at hs'
      cases hs'
    · cases hp
  | dropExecution id =>
    simp only [Mcp.step] at hp
    split at hp
    · obtain ⟨st, hs', _⟩ := h.books.dropExecution id
      rw [Sys.panicOr_panicked (Sys.locked_panicked hp)] at hs'
      cases hs'
    · cases hp
  | attachProject id project =>
    simp only [Mcp.step] at hp
    split at hp
    · cases hp
    · cases hp
    · have hp := Sys.locked_panicked hp
      split at hp <;> cases hp
  | tick | newControl d => cases hp
  | cloneControl c | dropControl c | shutdown n | abandon n =>
    simp only [Mcp.step] at hp
    split at hp <;> cases hp
  | timeout n =>
    simp only [Mcp.step] at hp
    split at hp
    · split at hp <;> cases hp
    · cases hp
  | acquire n project cls c | tryRequest n c | cancel n c r =>
    simp only [Mcp.step, Sys.start] at hp
    split at hp
    · split at hp <;> cases hp
    · cases hp

end

/-- In every state that calls, leases and shutdowns can reach, in any order: all limits hold, the
counters of every project are those of its entries and leases, a project has a record exactly
while one of its counters is not zero, and no critical section underflows or fails an `expect`. -/
theorem bookkeeping (l : WorkLimits) (hl : l.validate = .ok ()) (s : Sys) (h : Reachable l s) :
    s.state.requests.entries.length ≤ l.requests ∧
    (∀ c, s.state.runningCount c ≤ (l.lane c).running ∧ s.state.queuedCount c ≤ (l.lane c).queued) ∧
    (∀ p c, (s.state.counts p).queued c = s.state.queuedIn p c ∧
      (s.state.counts p).queued c ≤ (l.lane c).queuedPerProject ∧
      (s.state.counts p).running c = s.state.runningIn p c ∧
      (s.state.counts p).running c ≤ (l.lane c).runningPerProject) ∧
    (∀ p, (s.state.counts p).requests = attached s.leases p ∧
      (s.state.counts p).requests ≤ l.requestsPerProject) ∧
    (∀ p, p ∈ s.state.projects ↔ (s.state.counts p).Used) ∧
    ∀ a, step l s a ≠ .panicked := by
  have hi := h.inv hl
  have hb := hi.books
  refine ⟨?_, fun c => ⟨hb.running_le c, hb.queued_le c⟩, fun p c => ?_, fun p => ?_, hb.used,
    hi.no_panic⟩
  · have hlen := hb.requests_perm.length_eq
    simp only [AList.keys, List.keys, List.length_map] at hlen
    rw [hlen]
    exact hb.requests_le
  · refine ⟨hb.queued_eq p c, ?_, hb.running_eq p c, ?_⟩
    · rw [hb.queued_eq]; exact hb.queuedIn_le p c
    · rw [hb.running_eq]; exact hb.runningIn_le p c
  · refine ⟨hb.requests_eq p, ?_⟩
    rw [hb.requests_eq]
    exact hb.attached_le p

/-- Thread 0 is admitted while thread 1, of the same project, stays in the queue. -/
def twoWaiters : List Act :=
  [.newControl none, .acquire 0 "p" .native 0, .acquire 1 "p" .native 0] ++
    List.replicate 6 (.go 0) ++ List.replicate 6 (.go 1) ++ List.replicate 5 (.go 0)

theorem bookkeeping_twoWaiters :
    ∃ s, Reachable .default s ∧ s.state.queuedIn "p" .native = 1 ∧ s.state.runningIn "p" .native = 1 ∧
      (s.state.counts "p").queued .native = 1 ∧ (s.state.counts "p").running .native = 1 ∧
      ∀ a, step .default s a ≠ .panicked := by
  obtain ⟨s, hs, ht⟩ := Lib.steps_of_run (step .default) {} twoWaiters
    (fun s => s.state.queuedIn "p" .native == 1 && s.state.runningIn "p" .native == 1)
    (by decide +kernel)
  simp only [Bool.and_eq_true, beq_iff_eq] at ht
  have hb := bookkeeping .default WorkLimits.validate_default s hs
  refine ⟨s, hs, ht.1, ht.2, ?_, ?_, hb.2.2.2.2.2⟩
  · rw [(hb.2.2.1 "p" .native).1]; exact ht.1
  · rw [(hb.2.2.1 "p" .native).2.2.1]; exact ht.2

end Mcp
end CodeSage
