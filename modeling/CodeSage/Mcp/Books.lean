import CodeSage.Lib.Assoc
import CodeSage.Mcp.Coordinator

/-!
# CodeSage.Mcp.Books

The coordinator keeps its counters twice: per-project arrays in `projects`, and implicitly in the
queue, the running map and the outstanding `RequestLease`s. `Books` says that the two agree, that
every limit holds and that a project has a record exactly while one of its counters is not zero.

Each critical section of `WorkState` is shown to keep `Books` and, where it decrements or expects
something, to complete. Every change is stated as "count plus 0 or 1", so the lemmas about the
lists and those about the arrays meet without a case distinction on the project.
-/

namespace CodeSage
namespace Mcp

open Protocol

def State.queuedIn (st : State) (p : PathBuf) (c : WorkClass) : Nat :=
  st.queued.countP fun e => e.project = p ∧ e.cls = c

def State.runningIn (st : State) (p : PathBuf) (c : WorkClass) : Nat :=
  st.running.entries.countP fun e => e.2.project = p ∧ e.2.cls = c

/-- The live leases attached to project `p`. -/
def attached (leases : List RequestLease) (p : PathBuf) : Nat :=
  leases.countP fun r => r.project = some p

/-- Some counter of the record is not zero. -/
def ProjectCounts.Used (x : ProjectCounts) : Prop :=
  x.requests ≠ 0 ∨ ∃ c, x.queued c ≠ 0 ∨ x.running c ≠ 0

structure Books (l : WorkLimits) (st : State) (leases : List RequestLease) : Prop where
  requests_perm : st.requests.keys.Perm (leases.map RequestLease.id)
  requests_le : leases.length ≤ l.requests
  running_le : ∀ c, st.runningCount c ≤ (l.lane c).running
  queued_le : ∀ c, st.queuedCount c ≤ (l.lane c).queued
  queued_eq : ∀ p c, (st.counts p).queued c = st.queuedIn p c
  queuedIn_le : ∀ p c, st.queuedIn p c ≤ (l.lane c).queuedPerProject
  running_eq : ∀ p c, (st.counts p).running c = st.runningIn p c
  runningIn_le : ∀ p c, st.runningIn p c ≤ (l.lane c).runningPerProject
  requests_eq : ∀ p, (st.counts p).requests = attached leases p
  attached_le : ∀ p, attached leases p ≤ l.requestsPerProject
  used : ∀ p, p ∈ st.projects ↔ (st.counts p).Used
  lease_le : ∀ r ∈ leases, r.id ≤ st.nextId
  queued_id_le : ∀ e ∈ st.queued, e.id ≤ st.nextId
  queued_sorted : st.queued.Pairwise fun a b => a.id < b.id
  running_id_le : ∀ id ∈ st.running, id ≤ st.nextId
  disjoint : ∀ e ∈ st.queued, e.id ∉ st.running

section Counts

variable {st : State}

theorem counts_insert (m : AList fun _ : PathBuf => ProjectCounts) (p q : PathBuf)
    (x : ProjectCounts) :
    ((m.insert p x).lookup q).getD {} = if q = p then x else (m.lookup q).getD {} := by
  rw [Lib.lookup_insert]
  split <;> rfl

theorem mem_insert (m : AList fun _ : PathBuf => ProjectCounts) (p q : PathBuf)
    (x : ProjectCounts) : q ∈ m.insert p x ↔ q = p ∨ q ∈ m := by
  rw [AList.mem_insert]

/-- A record that `prune_project` removes is one that reads as absent. -/
theorem counts_prune (st : State) (p q : PathBuf) : (st.pruneProject p).counts q = st.counts q := by
  simp only [State.pruneProject]
  split
  · rename_i x hx
    split
    · rename_i h
      simp only [State.counts, Lib.lookup_erase]
      split
      · rename_i hq
        subst hq
        obtain ⟨r, qu, ru⟩ := x
        simp only [List.all_cons, List.all_nil, Bool.and_true, Bool.and_eq_true, beq_iff_eq] at h
        have h1 : qu = fun _ => 0 := by funext c; cases c <;> simp [h]
        have h2 : ru = fun _ => 0 := by funext c; cases c <;> simp [h]
        simp [hx, h.1, h1, h2]
      · rfl
    · rfl
  · rfl

theorem prune_used {p : PathBuf} {x : ProjectCounts} (hx : st.projects.lookup p = some x)
    (q : PathBuf) :
    q ∈ (st.pruneProject p).projects ↔ if q = p then x.Used else q ∈ st.projects := by
  have hp : p ∈ st.projects := by rw [Lib.mem_iff_lookup, hx]; simp
  have hused : x.Used ↔ ¬ (x.requests = 0 ∧
      ([WorkClass.interactive, .analysis, .native].all fun c =>
        x.queued c == 0 && x.running c == 0) = true) := by
    simp only [ProjectCounts.Used, List.all_cons, List.all_nil, Bool.and_true, Bool.and_eq_true,
      beq_iff_eq]
    constructor
    · rintro (h | ⟨c, h⟩) h'
      · exact h h'.1
      · cases c <;> simp_all
    · intro h
      by_contra hn
      push Not at hn
      exact h ⟨hn.1, ⟨(hn.2 .interactive).1, (hn.2 .interactive).2⟩,
        ⟨(hn.2 .analysis).1, (hn.2 .analysis).2⟩, (hn.2 .native).1, (hn.2 .native).2⟩
  simp only [State.pruneProject, hx]
  split
  · rename_i h
    rw [AList.mem_erase]
    split
    · rename_i hq; exact iff_of_false (fun hn => hn.1 hq) fun hu => hused.mp hu h
    · rename_i hq; exact and_iff_right hq
  · rename_i h
    split
    · rename_i hq; subst hq; exact iff_of_true hp (hused.mpr h)
    · rfl

/-- Decrementing a counter of an existing record and pruning it afterwards. -/
theorem decrement_prune {p : PathBuf} {x x' : ProjectCounts}
    {f : ProjectCounts → Option ProjectCounts} (hx : st.projects.lookup p = some x)
    (hf : f x = some x') :
    ∃ st', (st.decrement p f).map (State.pruneProject · p) = some st' ∧
      (∀ q, st'.counts q = if q = p then x' else st.counts q) ∧
      (∀ q, q ∈ st'.projects ↔ if q = p then x'.Used else q ∈ st.projects) ∧
      st' = { st with projects := st'.projects } := by
  refine ⟨({ st with projects := st.projects.insert p x' }).pruneProject p, ?_, ?_, ?_, ?_⟩
  · simp [State.decrement, hx, hf]
  · intro q
    rw [counts_prune]
    exact counts_insert _ _ _ _
  · intro q
    rw [prune_used (x := x') (by simp)]
    split
    · rfl
    · rename_i hq
      simp only [mem_insert]
      exact or_iff_right hq
  · simp only [State.pruneProject]
    split
    · split <;> rfl
    · rfl

end Counts

section Ops

variable {l : WorkLimits} {st : State} {leases : List RequestLease}

/-- A project with a counter above zero has a record, which is what `counts` reads. -/
theorem Books.lookup (h : Books l st leases) {p : PathBuf} (hu : (st.counts p).Used) :
    st.projects.lookup p = some (st.counts p) := by
  have hp := (h.used p).mpr hu
  rw [Lib.mem_iff_lookup] at hp
  simp only [State.counts]
  cases hl : st.projects.lookup p with
  | none => exact absurd hl hp
  | some x => rfl

/-- Writing a record with a counter above zero keeps "has a record iff a counter is not zero". -/
theorem Books.used_insert (h : Books l st leases) {p : PathBuf} {x : ProjectCounts} (hx : x.Used)
    (q : PathBuf) :
    q ∈ st.projects.insert p x ↔ (((st.projects.insert p x).lookup q).getD {}).Used := by
  rw [mem_insert, counts_insert]
  split
  · rename_i hq; exact iff_of_true (.inl hq) hx
  · rename_i hq; rw [or_iff_right hq]; exact h.used q

theorem checkedNext_some {n id : Nat} (h : checkedNext n = some id) : id = n + 1 := by
  simp only [checkedNext] at h
  split at h
  · cases h; rfl
  · cases h

theorem tryRequest_ok {control id : Nat} {st' : State}
    (hs : st.tryRequest l control = .ok (id, st')) :
    st.closed = false ∧ st.requests.entries.length ≠ l.requests ∧ id = st.nextId + 1 ∧
      st' = { st with nextId := id, requests := st.requests.insert id control } := by
  simp only [State.tryRequest] at hs
  split at hs
  · cases hs
  rename_i hc
  split at hs
  · cases hs
  rename_i hlen
  split at hs
  · cases hs
  rename_i id' hid
  cases hs
  exact ⟨by simpa using hc, hlen, checkedNext_some hid, rfl⟩

theorem enqueue_ok {project : PathBuf} {c : WorkClass} {control phase id : Nat} {st' : State}
    (hs : st.enqueue l project c control phase = .ok (id, st')) :
    st.closed = false ∧ st.queuedCount c < (l.lane c).queued ∧
      (st.counts project).queued c < (l.lane c).queuedPerProject ∧ id = st.nextId + 1 ∧
      st' = { st with
        nextId := id
        projects := st.projects.insert project
          ((st.counts project).setQueued c ((st.counts project).queued c + 1))
        queued := st.queued ++ [{ id, project, cls := c, control, phase }] } := by
  simp only [State.enqueue] at hs
  split at hs
  · cases hs
  rename_i hc
  split at hs
  · cases hs
  rename_i hroom
  split at hs
  · cases hs
  rename_i id' hid
  simp only [not_or, Nat.not_le] at hroom
  obtain ⟨rfl, hst⟩ := Prod.mk.inj (Except.ok.inj hs)
  exact ⟨by simpa using hc, hroom.1, hroom.2, checkedNext_some hid, hst.symm⟩

theorem Books.tryRequest (h : Books l st leases) {control id : Nat} {st' : State}
    (hs : st.tryRequest l control = .ok (id, st')) : Books l st' ({ id } :: leases) := by
  obtain ⟨_, hlen, hid, rfl⟩ := tryRequest_ok hs
  have hfresh : ∀ r ∈ leases, r.id ≠ id := fun r hr he => by
    have := h.lease_le r hr
    omega
  have hnew : id ∉ st.requests := by
    rw [AList.mem_keys]
    intro hmem
    obtain ⟨r, hr, he⟩ := List.mem_map.mp (h.requests_perm.mem_iff.mp hmem)
    exact hfresh r hr he
  have hkeys : st.requests.entries.length = leases.length := by
    have := h.requests_perm.length_eq
    simpa [AList.keys, List.keys] using this
  have hle := h.requests_le
  refine ⟨?_, ?_, h.running_le, h.queued_le, h.queued_eq, h.queuedIn_le, h.running_eq,
    h.runningIn_le, ?_, ?_, h.used, ?_, ?_, h.queued_sorted, ?_, h.disjoint⟩
  · rw [AList.keys_insert, List.erase_of_not_mem (by rwa [← AList.mem_keys])]
    exact h.requests_perm.cons _
  · rw [List.length_cons]; omega
  · intro p
    rw [attached, List.countP_cons_of_neg (by simp)]
    exact h.requests_eq p
  · intro p
    rw [attached, List.countP_cons_of_neg (by simp)]
    exact h.attached_le p
  · intro r hr
    rcases List.mem_cons.mp hr with rfl | hr
    · exact Nat.le_refl _
    · have := h.lease_le r hr; simp only; omega
  · intro e he
    have := h.queued_id_le e he; simp only; omega
  · intro i hi
    have := h.running_id_le i hi; simp only; omega

/-- Adding one to the counter of class `c` in an array, seen from any class. -/
theorem update_add (f : WorkClass → Nat) (c c' : WorkClass) :
    Function.update f c (f c + 1) c' = f c' + if c = c' then 1 else 0 := by
  by_cases hc : c' = c
  · subst hc; simp
  · rw [Function.update_of_ne hc, if_neg (Ne.symm hc), Nat.add_zero]

theorem Books.enqueue (h : Books l st leases) {project : PathBuf} {c : WorkClass}
    {control phase id : Nat} {st' : State}
    (hs : st.enqueue l project c control phase = .ok (id, st')) : Books l st' leases := by
  obtain ⟨_, hroom, hproject, hid, hst⟩ := enqueue_ok hs
  have hcounts : ∀ p, st'.counts p = if p = project then
      (st.counts project).setQueued c ((st.counts project).queued c + 1) else st.counts p := by
    intro p; rw [hst]; exact counts_insert _ _ _ _
  have hqueued : ∀ p c', (st'.counts p).queued c' =
      (st.counts p).queued c' + if project = p ∧ c = c' then 1 else 0 := by
    intro p c'
    rw [hcounts]
    split
    · rename_i hp; subst hp; simp [update_add]
    · rename_i hp; simp [Ne.symm hp]
  have hrest : ∀ p, (st'.counts p).running = (st.counts p).running ∧
      (st'.counts p).requests = (st.counts p).requests := by
    intro p
    rw [hcounts]
    split
    · rename_i hp; subst hp; exact ⟨rfl, rfl⟩
    · exact ⟨rfl, rfl⟩
  have hin : ∀ p c', st'.queuedIn p c' =
      st.queuedIn p c' + if project = p ∧ c = c' then 1 else 0 := by
    intro p c'
    rw [hst]
    simp [State.queuedIn, List.countP_append, List.countP_singleton]
  subst hst
  refine ⟨h.requests_perm, h.requests_le, h.running_le, ?_, ?_, ?_, ?_, h.runningIn_le, ?_,
    h.attached_le, ?_, ?_, ?_, ?_, ?_, ?_⟩
  · intro c'
    have := h.queued_le c'
    simp only [State.queuedCount, List.countP_append, List.countP_singleton] at hroom this ⊢
    by_cases hc : c = c'
    · subst hc; simp; omega
    · simp [hc]; omega
  · intro p c'; rw [hqueued, hin, h.queued_eq]
  · intro p c'
    rw [hin]
    have hle := h.queuedIn_le p c'
    split
    · rename_i hp
      obtain ⟨rfl, rfl⟩ := hp
      have := h.queued_eq project c
      omega
    · exact hle
  · intro p c'; rw [(hrest p).1]; exact h.running_eq p c'
  · intro p; rw [(hrest p).2]; exact h.requests_eq p
  · exact h.used_insert (.inr ⟨c, .inl (by simp)⟩)
  · intro r hr
    have := h.lease_le r hr; simp only; omega
  · intro e he
    rcases List.mem_append.mp he with he | he
    · have := h.queued_id_le e he; simp only; omega
    · rw [List.mem_singleton.mp he]
  · rw [List.pairwise_append]
    refine ⟨h.queued_sorted, List.pairwise_singleton _ _, ?_⟩
    intro a ha b hb
    rw [List.mem_singleton.mp hb]
    have := h.queued_id_le a ha
    simp only; omega
  · intro i hi
    have := h.running_id_le i hi; simp only; omega
  · intro e he hr
    rcases List.mem_append.mp he with he | he
    · exact h.disjoint e he hr
    · rw [List.mem_singleton.mp he] at hr
      have := h.running_id_le _ hr
      simp only at this; omega

theorem decr_eq {n : Nat} (h : 0 < n) : decr n = some (n - 1) := by
  simp [decr, Nat.ne_of_gt h]

theorem update_sub (f : WorkClass → Nat) (c c' : WorkClass) (h : 0 < f c) :
    Function.update f c (f c - 1) c' + (if c = c' then 1 else 0) = f c' := by
  by_cases hc : c' = c
  · subst hc; simp; omega
  · rw [Function.update_of_ne hc, if_neg (Ne.symm hc), Nat.add_zero]

/-- What the entry found by number contributes to the counts of the queue. -/
theorem queued_split {id : Nat} {e : Pending} (he : st.queued.find? (fun e => e.id = id) = some e)
    (q : Pending → Prop) [DecidablePred q] :
    st.queued.countP (fun e => q e) =
      (st.queued.eraseP fun e => e.id = id).countP (fun e => q e) + if q e then 1 else 0 := by
  rw [(Lib.perm_of_find? he).countP_eq, List.countP_cons]
  simp

theorem Books.erased (h : Books l st leases) {id : Nat} {e e' : Pending}
    (he : st.queued.find? (fun e => e.id = id) = some e)
    (he' : e' ∈ st.queued.eraseP fun e => e.id = id) : e'.id ≠ id := by
  obtain ⟨pre, post, hl, hr, hid, hpre⟩ := Lib.find?_split he
  have hsorted := h.queued_sorted
  rw [hl, List.pairwise_append, List.pairwise_cons] at hsorted
  rw [hr] at he'
  simp only [decide_eq_true_eq] at hid
  rcases List.mem_append.mp he' with hm | hm
  · simpa using hpre e' hm
  · have := hsorted.2.1.1 e' hm
    omega

/-- What an admission needs to know about the entry it moves, all of it kept by the mutex. -/
structure Admissible (l : WorkLimits) (st : State) (c : WorkClass) (e : Pending) : Prop where
  found : st.queued.find? (fun e' => e'.id = e.id) = some e
  cls : e.cls = c
  lane : st.runningCount c < (l.lane c).running
  project : (st.counts e.project).running c < (l.lane c).runningPerProject

theorem Books.queued_pos (h : Books l st leases) {e : Pending} (he : e ∈ st.queued) :
    0 < (st.counts e.project).queued e.cls := by
  rw [h.queued_eq]
  exact List.countP_pos_iff.mpr ⟨e, he, by simp⟩

theorem Books.queued_lookup (h : Books l st leases) {e : Pending} (he : e ∈ st.queued) :
    st.projects.lookup e.project = some (st.counts e.project) :=
  h.lookup (.inr ⟨e.cls, .inl (Nat.ne_of_gt (h.queued_pos he))⟩)

theorem admitEntry_eq (h : Books l st leases) {c : WorkClass} {e : Pending} (ha : Admissible l st c e) :
    st.admitEntry c e.id = some { st with
      queued := st.queued.eraseP fun e' => e'.id = e.id
      projects := st.projects.insert e.project
        (((st.counts e.project).setQueued c ((st.counts e.project).queued c - 1)).setRunning c
          ((st.counts e.project).running c + 1))
      lastProject := Function.update st.lastProject c (some e.project)
      running := st.running.insert e.id ⟨e.project, c, e.control⟩ } := by
  have hmem := List.mem_of_find?_eq_some ha.found
  have hpos : 0 < (st.counts e.project).queued c := ha.cls ▸ h.queued_pos hmem
  simp only [State.admitEntry, ha.found, h.queued_lookup hmem, decr_eq hpos]

theorem Books.admitEntry (h : Books l st leases) {c : WorkClass} {e : Pending} {st' : State}
    (ha : Admissible l st c e) (hs : st.admitEntry c e.id = some st') : Books l st' leases := by
  have hmem := List.mem_of_find?_eq_some ha.found
  have hpos : 0 < (st.counts e.project).queued c := ha.cls ▸ h.queued_pos hmem
  rw [admitEntry_eq h ha, Option.some.injEq] at hs
  have hcounts : ∀ p, st'.counts p = if p = e.project then
      ((st.counts e.project).setQueued c ((st.counts e.project).queued c - 1)).setRunning c
        ((st.counts e.project).running c + 1) else st.counts p := by
    intro p; rw [← hs]; exact counts_insert _ _ _ _
  have hqueued : ∀ p c', (st'.counts p).queued c' + (if e.project = p ∧ e.cls = c' then 1 else 0) =
      (st.counts p).queued c' := by
    intro p c'
    rw [hcounts, ha.cls]
    split
    · rename_i hp; subst hp; simpa using update_sub _ c c' hpos
    · rename_i hp; simp [Ne.symm hp]
  have hrunning : ∀ p c', (st'.counts p).running c' =
      (st.counts p).running c' + if e.project = p ∧ e.cls = c' then 1 else 0 := by
    intro p c'
    rw [hcounts, ha.cls]
    split
    · rename_i hp; subst hp; simp [update_add]
    · rename_i hp; simp [Ne.symm hp]
  have hrequests : ∀ p, (st'.counts p).requests = (st.counts p).requests := by
    intro p
    rw [hcounts]
    split
    · rename_i hp; subst hp; rfl
    · rfl
  have hfresh : e.id ∉ st.running := h.disjoint e hmem
  have hentries : (st.running.insert e.id ⟨e.project, c, e.control⟩).entries =
      ⟨e.id, ⟨e.project, c, e.control⟩⟩ :: st.running.entries :=
    AList.entries_insert_of_notMem hfresh
  have hin : ∀ p c', st.queuedIn p c' =
      st'.queuedIn p c' + if e.project = p ∧ e.cls = c' then 1 else 0 := by
    intro p c'
    rw [← hs]
    exact queued_split ha.found fun e => e.project = p ∧ e.cls = c'
  have hrin : ∀ p c', st'.runningIn p c' =
      st.runningIn p c' + if e.project = p ∧ e.cls = c' then 1 else 0 := by
    intro p c'
    rw [← hs, ha.cls]
    simp only [State.runningIn]
    rw [hentries, List.countP_cons]
    simp
  have hsub : (st.queued.eraseP fun e' => e'.id = e.id).Sublist st.queued := List.eraseP_sublist
  subst hs
  refine ⟨h.requests_perm, h.requests_le, ?_, ?_, ?_, ?_, ?_, ?_, ?_, h.attached_le, ?_,
    h.lease_le, ?_, h.queued_sorted.sublist hsub, ?_, ?_⟩
  · intro c'
    have := h.running_le c'
    have hl := ha.lane
    simp only [State.runningCount, hentries, List.countP_cons] at this hl ⊢
    by_cases hc : c = c'
    · subst hc; simp; omega
    · simp [hc]; omega
  · intro c'
    exact Nat.le_trans (hsub.countP_le) (h.queued_le c')
  · intro p c'
    have h1 := hqueued p c'
    have h2 := hin p c'
    have h3 := h.queued_eq p c'
    omega
  · intro p c'
    have h1 := hin p c'
    have h2 := h.queuedIn_le p c'
    omega
  · intro p c'
    rw [hrunning, hrin, h.running_eq]
  · intro p c'
    rw [hrin]
    have hle := h.runningIn_le p c'
    split
    · rename_i hp
      obtain ⟨rfl, hc⟩ := hp
      have h1 := ha.project
      have h2 := h.running_eq e.project c
      rw [ha.cls] at hc
      subst hc
      omega
    · exact hle
  · intro p; rw [hrequests]; exact h.requests_eq p
  · exact h.used_insert (.inr ⟨c, .inr (by simp)⟩)
  · intro e' he'; exact h.queued_id_le e' (hsub.subset he')
  · intro i hi
    rcases (AList.mem_insert _).mp hi with rfl | hi
    · exact h.queued_id_le e hmem
    · exact h.running_id_le i hi
  · intro e' he' hr
    rcases (AList.mem_insert _).mp hr with he | hr
    · exact h.erased ha.found he' he
    · exact h.disjoint e' (hsub.subset he') hr

theorem Books.lease_unique (h : Books l st leases) {id : Nat} {r : RequestLease}
    (hr : leases.find? (fun r => r.id = id) = some r) :
    ∃ pre post, leases = pre ++ r :: post ∧ (leases.eraseP fun r => r.id = id) = pre ++ post ∧
      r.id = id ∧ (∀ x ∈ pre, x.id ≠ id) ∧ ∀ x ∈ post, x.id ≠ id := by
  obtain ⟨pre, post, hl, he, hid, hpre⟩ := Lib.find?_split hr
  simp only [decide_eq_true_eq] at hid
  refine ⟨pre, post, hl, he, hid, fun x hx => by simpa using hpre x hx, ?_⟩
  have hnodup : (leases.map RequestLease.id).Nodup := h.requests_perm.nodup_iff.mp st.requests.keys_nodup
  rw [hl, List.map_append, List.map_cons, List.nodup_append, List.nodup_cons] at hnodup
  intro x hx hxid
  exact hnodup.2.1.1 (List.mem_map.mpr ⟨x, hx, by rw [hxid, hid]⟩)

theorem attachProject_ok {project : PathBuf} {st' : State} (hl : 0 < l.requestsPerProject)
    (hs : st.attachProject l project = .ok st') :
    st.closed = false ∧ (st.counts project).requests < l.requestsPerProject ∧
      st' = { st with
        projects := st.projects.insert project
          ((st.counts project).setRequests ((st.counts project).requests + 1)) } := by
  simp only [State.attachProject] at hs
  split at hs
  · cases hs
  rename_i hc
  split at hs
  · cases hs
  rename_i hroom
  refine ⟨by simpa using hc, ?_, (Except.ok.inj hs).symm⟩
  simp only [State.counts]
  cases hlk : st.projects.lookup project with
  | none => exact hl
  | some x => simpa [hlk] using hroom

/-- The leases after `attach_project` on lease `id`. -/
def attachLease (leases : List RequestLease) (id : Nat) (project : PathBuf) : List RequestLease :=
  leases.map fun r => if r.id = id then { r with project := some project } else r

theorem Books.attachProject (h : Books l st leases) (hl : 0 < l.requestsPerProject)
    {project : PathBuf} {id : Nat} {st' : State}
    (hr : leases.find? (fun r => r.id = id) = some ⟨id, none⟩)
    (hs : st.attachProject l project = .ok st') : Books l st' (attachLease leases id project) := by
  obtain ⟨_, hroom, hst⟩ := attachProject_ok hl hs
  obtain ⟨pre, post, hleases, _, _, hpre, hpost⟩ := h.lease_unique hr
  have hsame : ∀ xs : List RequestLease, (∀ x ∈ xs, x.id ≠ id) → attachLease xs id project = xs := by
    intro xs hxs
    refine (List.map_congr_left fun x hx => ?_).trans (List.map_id xs)
    rw [if_neg (hxs x hx)]; rfl
  have hnew : attachLease leases id project = pre ++ ⟨id, some project⟩ :: post := by
    have h1 := hsame pre hpre
    have h2 := hsame post hpost
    simp only [attachLease] at h1 h2 ⊢
    rw [hleases, List.map_append, List.map_cons, h1, h2]
    simp
  have hids : (attachLease leases id project).map RequestLease.id = leases.map RequestLease.id := by
    rw [hnew, hleases]; simp
  have hcount : ∀ p, attached (attachLease leases id project) p =
      attached leases p + if project = p then 1 else 0 := by
    intro p
    rw [hnew, hleases]
    simp only [attached, List.countP_append, List.countP_cons]
    simp
    omega
  have hcounts : ∀ p, st'.counts p = if p = project then
      (st.counts project).setRequests ((st.counts project).requests + 1) else st.counts p := by
    intro p; rw [hst]; exact counts_insert _ _ _ _
  have hrest : ∀ p, (st'.counts p).running = (st.counts p).running ∧
      (st'.counts p).queued = (st.counts p).queued := by
    intro p
    rw [hcounts]
    split
    · rename_i hp; subst hp; exact ⟨rfl, rfl⟩
    · exact ⟨rfl, rfl⟩
  have hrequests : ∀ p, (st'.counts p).requests =
      (st.counts p).requests + if project = p then 1 else 0 := by
    intro p
    rw [hcounts]
    split
    · rename_i hp; subst hp; simp
    · rename_i hp; simp [Ne.symm hp]
  subst hst
  refine ⟨?_, ?_, h.running_le, h.queued_le, ?_, h.queuedIn_le, ?_, h.runningIn_le, ?_, ?_, ?_, ?_,
    h.queued_id_le, h.queued_sorted, h.running_id_le, h.disjoint⟩
  · rw [hids]; exact h.requests_perm
  · simpa [attachLease] using h.requests_le
  · intro p c; rw [(hrest p).2]; exact h.queued_eq p c
  · intro p c; rw [(hrest p).1]; exact h.running_eq p c
  · intro p; rw [hrequests, hcount, h.requests_eq]
  · intro p
    rw [hcount]
    have hle := h.attached_le p
    split
    · rename_i hp
      subst hp
      have := h.requests_eq project
      omega
    · exact hle
  · exact h.used_insert (.inl (by simp))
  · intro r hr'
    have hmem : r.id ∈ leases.map RequestLease.id := hids ▸ List.mem_map_of_mem hr'
    obtain ⟨r', hr', he⟩ := List.mem_map.mp hmem
    rw [← he]
    exact h.lease_le r' hr'

theorem Books.dropRequest (h : Books l st leases) {id : Nat} {r : RequestLease}
    (hr : leases.find? (fun r => r.id = id) = some r) :
    ∃ st', st.dropRequest r.id r.project = some st' ∧
      st' = { st with requests := st.requests.erase r.id, projects := st'.projects } ∧
      Books l st' (leases.eraseP fun r => r.id = id) := by
  obtain ⟨pre, post, hleases, herase, hid, _, _⟩ := h.lease_unique hr
  have hperm : (leases.map RequestLease.id).Perm (id :: (pre ++ post).map RequestLease.id) := by
    rw [hleases, ← hid]
    exact List.perm_middle.map RequestLease.id
  have hkeys : (st.requests.erase r.id).keys.Perm ((pre ++ post).map RequestLease.id) := by
    rw [AList.keys_erase, hid]
    have := (h.requests_perm.trans hperm).erase id
    rwa [List.erase_cons_head] at this
  have hlen : (pre ++ post).length ≤ l.requests := by
    have := h.requests_le
    rw [hleases] at this
    simp only [List.length_append, List.length_cons] at this ⊢
    omega
  have hmem : ∀ x ∈ pre ++ post, x.id ≤ st.nextId := by
    intro x hx
    refine h.lease_le x ?_
    rw [hleases]
    rcases List.mem_append.mp hx with hx | hx
    · exact List.mem_append_left _ hx
    · exact List.mem_append_right _ (List.mem_cons_of_mem _ hx)
  have hcount : ∀ p, attached leases p =
      attached (pre ++ post) p + if r.project = some p then 1 else 0 := by
    intro p
    rw [hleases]
    simp only [attached, List.countP_append, List.countP_cons]
    simp
    omega
  rw [herase]
  have hle : ∀ p, attached (pre ++ post) p ≤ l.requestsPerProject := by
    intro p
    have h1 := h.attached_le p
    have h2 := hcount p
    omega
  cases hp : r.project with
  | none =>
    refine ⟨{ st with requests := st.requests.erase r.id }, rfl, rfl, hkeys, hlen, h.running_le,
      h.queued_le, h.queued_eq, h.queuedIn_le, h.running_eq, h.runningIn_le, ?_, hle, h.used, hmem,
      h.queued_id_le, h.queued_sorted, h.running_id_le, h.disjoint⟩
    intro p
    have h1 := hcount p
    rw [hp, if_neg (by simp)] at h1
    have h2 := h.requests_eq p
    rw [h1] at h2
    exact h2
  | some p =>
    have hpos : 0 < (st.counts p).requests := by
      have h1 := hcount p
      rw [hp, if_pos rfl] at h1
      have h2 := h.requests_eq p
      omega
    have hlk : ({ st with requests := st.requests.erase r.id } : State).projects.lookup p =
        some (st.counts p) := h.lookup (.inl (Nat.ne_of_gt hpos))
    obtain ⟨st', hs, hcounts, hused, hst⟩ := decrement_prune
      (f := fun counts => (decr counts.requests).map counts.setRequests) hlk
      (by rw [decr_eq hpos]; rfl)
    have hrest : ∀ q, (st'.counts q).running = (st.counts q).running ∧
        (st'.counts q).queued = (st.counts q).queued := by
      intro q
      rw [hcounts]
      split
      · rename_i hq; subst hq; exact ⟨rfl, rfl⟩
      · exact ⟨rfl, rfl⟩
    refine ⟨st', hs, hst, ?_⟩
    have hrun : ∀ q c, st'.runningIn q c = st.runningIn q c := by intro q c; rw [hst]; rfl
    have hqu : ∀ q c, st'.queuedIn q c = st.queuedIn q c := by intro q c; rw [hst]; rfl
    refine ⟨by rw [hst]; exact hkeys, hlen, by rw [hst]; exact h.running_le,
      by rw [hst]; exact h.queued_le, ?_, ?_, ?_, ?_, ?_, hle, ?_, by rw [hst]; exact hmem,
      by rw [hst]; exact h.queued_id_le, by rw [hst]; exact h.queued_sorted,
      by rw [hst]; exact h.running_id_le, by rw [hst]; exact h.disjoint⟩
    · intro q c; rw [(hrest q).2, hqu]; exact h.queued_eq q c
    · intro q c; rw [hqu]; exact h.queuedIn_le q c
    · intro q c; rw [(hrest q).1, hrun]; exact h.running_eq q c
    · intro q c; rw [hrun]; exact h.runningIn_le q c
    · intro q
      have h1 := hcount q
      have h2 := h.requests_eq q
      rw [hcounts]
      split
      · rename_i hq
        subst hq
        rw [hp, if_pos rfl] at h1
        simp only [ProjectCounts.setRequests_requests]
        omega
      · rename_i hq
        rw [hp, if_neg (by simpa using Ne.symm hq)] at h1
        show (st.counts q).requests = _
        omega
    · intro q
      rw [hused, hcounts]
      split
      · rfl
      · exact h.used q

/-- What the entry found under a number contributes to the counts of the running map. -/
theorem running_split {id : Nat} {e : Running} (he : st.running.lookup id = some e)
    (q : Running → Prop) [DecidablePred q] :
    st.running.entries.countP (fun e => q e.2) =
      (st.running.erase id).entries.countP (fun e => q e.2) + if q e then 1 else 0 := by
  rw [(Lib.entries_perm_erase he).countP_eq, List.countP_cons]
  simp

theorem Books.dropPending (h : Books l st leases) (id : Nat) :
    ∃ st', st.dropPending id = some st' ∧
      st' = { st with
        queued := st.queued.eraseP fun e => e.id = id
        projects := st'.projects } ∧
      Books l st' leases := by
  cases he : st.queued.find? fun e => e.id = id with
  | none =>
    refine ⟨st, by simp only [State.dropPending, he], ?_, h⟩
    rw [List.eraseP_of_forall_not (fun x hx => List.find?_eq_none.mp he x hx)]
  | some e =>
    have hmem := List.mem_of_find?_eq_some he
    have hpos := h.queued_pos hmem
    have hsub : (st.queued.eraseP fun e => e.id = id).Sublist st.queued := List.eraseP_sublist
    have hlk : ({ st with queued := st.queued.eraseP fun e => e.id = id } : State).projects.lookup
        e.project = some (st.counts e.project) := h.queued_lookup hmem
    obtain ⟨st', hs, hcounts, hused, hst⟩ := decrement_prune
      (f := fun counts => (decr (counts.queued e.cls)).map (counts.setQueued e.cls)) hlk
      (by rw [decr_eq hpos]; rfl)
    have hqueued : ∀ p c, (st'.counts p).queued c + (if e.project = p ∧ e.cls = c then 1 else 0) =
        (st.counts p).queued c := by
      intro p c
      rw [hcounts]
      split
      · rename_i hp; subst hp; simpa using update_sub _ e.cls c hpos
      · rename_i hp; simp [Ne.symm hp]; rfl
    have hrest : ∀ p, (st'.counts p).running = (st.counts p).running ∧
        (st'.counts p).requests = (st.counts p).requests := by
      intro p
      rw [hcounts]
      split
      · rename_i hp; subst hp; exact ⟨rfl, rfl⟩
      · exact ⟨rfl, rfl⟩
    have hin : ∀ p c, st.queuedIn p c =
        st'.queuedIn p c + if e.project = p ∧ e.cls = c then 1 else 0 := by
      intro p c
      rw [hst]
      exact queued_split he fun e => e.project = p ∧ e.cls = c
    have hrun : ∀ p c, st'.runningIn p c = st.runningIn p c := by intro p c; rw [hst]; rfl
    refine ⟨st', by simpa only [State.dropPending, he] using hs, hst, by rw [hst]; exact h.requests_perm,
      h.requests_le, by rw [hst]; exact h.running_le, ?_, ?_, ?_, ?_, ?_, ?_, h.attached_le, ?_,
      by rw [hst]; exact h.lease_le, ?_, by rw [hst]; exact h.queued_sorted.sublist hsub,
      by rw [hst]; exact h.running_id_le, ?_⟩
    · intro c; rw [hst]; exact Nat.le_trans hsub.countP_le (h.queued_le c)
    · intro p c
      have h1 := hqueued p c
      have h2 := hin p c
      have h3 := h.queued_eq p c
      omega
    · intro p c
      have h1 := hin p c
      have h2 := h.queuedIn_le p c
      omega
    · intro p c; rw [(hrest p).1, hrun]; exact h.running_eq p c
    · intro p c; rw [hrun]; exact h.runningIn_le p c
    · intro p; rw [(hrest p).2]; exact h.requests_eq p
    · intro p
      rw [hused, hcounts]
      split
      · rfl
      · exact h.used p
    · intro e' he'; rw [hst] at he' ⊢; exact h.queued_id_le e' (hsub.subset he')
    · intro e' he'; rw [hst] at he' ⊢; exact h.disjoint e' (hsub.subset he')

theorem Books.dropExecution (h : Books l st leases) (id : Nat) :
    ∃ st', st.dropExecution id = some st' ∧
      st' = { st with running := st.running.erase id, projects := st'.projects } ∧
      Books l st' leases := by
  cases he : st.running.lookup id with
  | none =>
    refine ⟨st, by simp only [State.dropExecution, he], ?_, h⟩
    have : st.running.erase id = st.running := AList.ext (Lib.erase_entries_of_lookup_none he)
    rw [this]
  | some e =>
    have hrunning := fun p c => running_split he fun e => e.project = p ∧ e.cls = c
    have hpos : 0 < (st.counts e.project).running e.cls := by
      rw [h.running_eq]
      have := hrunning e.project e.cls
      rw [if_pos ⟨rfl, rfl⟩] at this
      simp only [State.runningIn]
      omega
    have hmem : ∀ i, i ∈ st.running.erase id → i ∈ st.running := fun i hi => (AList.mem_erase.mp hi).2
    have hlk : ({ st with running := st.running.erase id } : State).projects.lookup e.project =
        some (st.counts e.project) := h.lookup (.inr ⟨e.cls, .inr (Nat.ne_of_gt hpos)⟩)
    obtain ⟨st', hs, hcounts, hused, hst⟩ := decrement_prune
      (f := fun counts => (decr (counts.running e.cls)).map (counts.setRunning e.cls)) hlk
      (by rw [decr_eq hpos]; rfl)
    have hrunning' : ∀ p c, (st'.counts p).running c +
        (if e.project = p ∧ e.cls = c then 1 else 0) = (st.counts p).running c := by
      intro p c
      rw [hcounts]
      split
      · rename_i hp; subst hp; simpa using update_sub _ e.cls c hpos
      · rename_i hp; simp [Ne.symm hp]; rfl
    have hrest : ∀ p, (st'.counts p).queued = (st.counts p).queued ∧
        (st'.counts p).requests = (st.counts p).requests := by
      intro p
      rw [hcounts]
      split
      · rename_i hp; subst hp; exact ⟨rfl, rfl⟩
      · exact ⟨rfl, rfl⟩
    have hin : ∀ p c, st.runningIn p c =
        st'.runningIn p c + if e.project = p ∧ e.cls = c then 1 else 0 := by
      intro p c; rw [hst]; exact hrunning p c
    have hqu : ∀ p c, st'.queuedIn p c = st.queuedIn p c := by intro p c; rw [hst]; rfl
    refine ⟨st', by simpa only [State.dropExecution, he] using hs, hst,
      by rw [hst]; exact h.requests_perm, h.requests_le, ?_, by rw [hst]; exact h.queued_le, ?_, ?_, ?_,
      ?_, ?_, h.attached_le, ?_, by rw [hst]; exact h.lease_le, by rw [hst]; exact h.queued_id_le,
      by rw [hst]; exact h.queued_sorted, ?_, ?_⟩
    · intro c
      have h1 := running_split he fun e => e.cls = c
      have h2 := h.running_le c
      rw [hst]
      simp only [State.runningCount] at h2 ⊢
      omega
    · intro p c; rw [(hrest p).1, hqu]; exact h.queued_eq p c
    · intro p c; rw [hqu]; exact h.queuedIn_le p c
    · intro p c
      have h1 := hrunning' p c
      have h2 := hin p c
      have h3 := h.running_eq p c
      omega
    · intro p c
      have h1 := hin p c
      have h2 := h.runningIn_le p c
      omega
    · intro p; rw [(hrest p).2]; exact h.requests_eq p
    · intro p
      rw [hused, hcounts]
      split
      · rfl
      · exact h.used p
    · intro i hi; rw [hst] at hi ⊢; exact h.running_id_le i (hmem i hi)
    · intro e' he' hr; rw [hst] at he' hr; exact h.disjoint e' he' (hmem _ hr)

theorem Books.shutdown (h : Books l st leases) (alive : Nat → Bool) :
    Books l (st.shutdown alive).1 leases :=
  ⟨h.requests_perm, h.requests_le, h.running_le, h.queued_le, h.queued_eq, h.queuedIn_le,
    h.running_eq, h.runningIn_le, h.requests_eq, h.attached_le, h.used, h.lease_le, h.queued_id_le,
    h.queued_sorted, h.running_id_le, h.disjoint⟩

theorem Books.init (l : WorkLimits) : Books l {} [] where
  requests_perm := List.Perm.refl _
  requests_le := Nat.zero_le _
  running_le _ := Nat.zero_le _
  queued_le _ := Nat.zero_le _
  queued_eq _ _ := rfl
  queuedIn_le _ _ := Nat.zero_le _
  running_eq _ _ := rfl
  runningIn_le _ _ := Nat.zero_le _
  requests_eq _ := rfl
  attached_le _ := Nat.zero_le _
  used p := iff_of_false (by simp) (by simp [ProjectCounts.Used, State.counts])
  lease_le := by simp
  queued_id_le := by simp
  queued_sorted := List.Pairwise.nil
  running_id_le _ h := absurd h (by simp)
  disjoint := by simp

end Ops

end Mcp
end CodeSage
