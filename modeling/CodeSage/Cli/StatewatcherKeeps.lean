import CodeSage.Cli.Statewatcher

/-!
# CodeSage.Cli.StatewatcherKeeps

What the watcher owes and how it pays. An `Obligation` is opened by an event and closed by a pass that covers
it; while it is open it is `Due` in its own queue, or the watcher is `Owed` a full reconciliation. Every
section of the loop keeps the obligations (one `obliges_` lemma each), and so does the loop.
-/

namespace CodeSage
namespace Cli

open Lib

/-- What an event obliges the watcher to. -/
inductive Obligation where
  /-- index a changed file -/
  | change (path : Path)
  /-- purge a removed file -/
  | removal (path : Path)
  /-- purge what was under a removed path -/
  | tree (path : Path)
  /-- a bulk pass after a change of the header context -/
  | header

/-- A full reconciliation is owed. -/
def Owed (s : State) : Prop := s.lost = true ∨ s.refresh.pending = true

/-- The obligation stands in its queue. -/
def Due : Obligation → State → Prop
  | .change path, s => path ∈ s.pending ∨ path ∈ s.parked
  | .removal path, s => path ∈ s.removedPaths
  | .tree path, s => path ∈ s.removedPrefixes
  | .header, s => s.bulkRetryAt.isSome = true

def Obligation.Opens : Obligation → Effect → Prop
  | .change path, e => e = .changed path
  | .removal path, e => e = .removed path
  | .tree path, e => e = .removedPrefix path
  | .header, e => ∃ path, e = .headerChanged path

def Obligation.Closes : Obligation → Effect → Prop
  | .change path, e => e = .indexed path ∨ e = .ignored path ∨ ∃ reconciling, e = .bulk reconciling .done
  | .removal path, e =>
    e = .changed path ∨ e = .removal .done ∨ e = .gaveUp ∨ ∃ reconciling, e = .bulk reconciling .done
  | .tree _, e => e = .removal .done ∨ e = .gaveUp ∨ ∃ reconciling, e = .bulk reconciling .done
  | .header, e => (∃ reconciling, e = .bulk reconciling .done) ∨ e = .bulk false .failed

/-- The paths that a per-file pass has taken from the queue and not settled yet. -/
def Obligation.InHand : Obligation → List Path → Prop
  | .change path, hand => path ∈ hand
  | _, _ => False

/-- The obligation is on the books. No path is being indexed between two sections of the loop. -/
def Held (o : Obligation) (r : State × List Path) : Prop :=
  r.1.currentlyIndexing = [] → Due o r.1 ∨ Owed r.1 ∨ o.InHand r.2

def Tracked (o : Obligation) (s : State) : Prop := Held o (s, [])

variable {o : Obligation} {config : Config} {s : State}

theorem not_inHand_nil : ¬o.InHand [] := by
  cases o with
  | change path => exact List.not_mem_nil
  | _ => exact id

theorem tracked_iff : Tracked o s ↔ (s.currentlyIndexing = [] → Due o s ∨ Owed s) := by
  simp only [Tracked, Held, not_inHand_nil, or_false]

/-- A section keeps the obligation. -/
abbrev Keeps (o : Obligation) (s : State) (effects : List Effect) (s' : State) : Prop :=
  Obliges (Tracked o) o.Opens o.Closes s effects s'

theorem tracked_of_owed (h : Owed s) : Tracked o s := fun _ => .inr (.inl h)

/-- Only the queues, the flags and `currentlyIndexing` matter. -/
theorem Tracked.congr {s s' : State} (h : Tracked o s) (hidle : s'.currentlyIndexing = s.currentlyIndexing)
    (hdue : Due o s → Due o s') (howed : Owed s → Owed s') : Tracked o s' := by
  rw [tracked_iff] at h ⊢
  intro hcalm
  rcases h (hidle ▸ hcalm) with h | h
  · exact .inl (hdue h)
  · exact .inr (howed h)

section Lost

theorem keeps_shed (o : Obligation) (s : State) : Keeps o s [] s.shed := by
  unfold State.shed
  split
  · exact .always (tracked_of_owed (.inl rfl))
  · exact .refl s

theorem pending_request (r : FilterRefresh) (now : Instant) : (r.request now).pending = true := rfl

theorem keeps_takeLost (o : Obligation) (s : State) (now : Instant) : Keeps o s [] (s.takeLost now) := by
  unfold State.takeLost
  split
  · exact .always (tracked_of_owed (.inr rfl))
  · exact .refl s

theorem keeps_lost (o : Obligation) (s : State) (lost : Bool) : Keeps o s [] { s with lost := s.lost || lost } := by
  refine .silent fun h => h.congr rfl ?_ ?_
  · intro hdue
    cases o <;> exact hdue
  · rintro (hlost | hpending)
    · exact .inl (by simp [hlost])
    · exact .inr hpending

end Lost

section Bulk

theorem mem_foldl_put {f : Option Instant → Instant} {keys : List Path} : ∀ {m : Table Path Instant} {path : Path},
    path ∈ m → path ∈ keys.foldl (fun m key => m.put key f) m := by
  induction keys with
  | nil => exact fun h => h
  | cons key keys ih => exact fun {m} _ h => ih ((AList.mem_insert m).mpr (.inr h))

/-- A bulk pass that did not complete leaves what is queued. -/
theorem due_applyBulkOutcome {outcome : WorkOutcome} (hdone : outcome ≠ .done)
    (hheader : o = .header → outcome ≠ .failed) {now : Instant} {debounce : Nat} {cooldown : Option Instant}
    (h : Due o s) : Due o (applyBulkOutcome outcome s now debounce cooldown) := by
  cases outcome with
  | done => exact absurd rfl hdone
  | skipped =>
    cases o with
    | change path => exact h.imp_left mem_foldl_put
    | removal path => exact h
    | tree path => exact h
    | header => rfl
  | failed =>
    cases o with
    | change path => exact h
    | removal path => exact h
    | tree path => exact h
    | header => exact absurd rfl (hheader rfl)

@[simp] theorem applyBulkOutcome_currentlyIndexing (outcome : WorkOutcome) (s : State) (now : Instant) (debounce : Nat)
    (cooldown : Option Instant) :
    (applyBulkOutcome outcome s now debounce cooldown).currentlyIndexing = s.currentlyIndexing := by
  cases outcome <;> rfl

theorem owed_applyBulkOutcome {outcome : WorkOutcome} {now : Instant} {debounce : Nat} {cooldown : Option Instant} :
    Owed (applyBulkOutcome outcome s now debounce cooldown) ↔ Owed s := by
  cases outcome <;> exact Iff.rfl

theorem keeps_skipped (o : Obligation) (s : State) (now : Instant) (debounce : Nat) (cooldown : Option Instant) :
    Keeps o s [] (applyBulkOutcome .skipped s now debounce cooldown) := by
  refine .silent fun h => h.congr (by simp) (fun hdue => ?_) owed_applyBulkOutcome.mpr
  exact due_applyBulkOutcome WorkOutcome.noConfusion (fun _ => WorkOutcome.noConfusion) hdue

/-- A pass that does not complete clears nothing. -/
theorem runBulkGuarded_spec (o : Obligation) (config : Config) (s : State) (facts : BulkFacts) :
    (runBulkGuarded config s facts).1.currentlyIndexing = s.currentlyIndexing ∧
      (runBulkGuarded config s facts).1.refresh = s.refresh ∧
      (runBulkGuarded config s facts).1.lost = s.lost ∧
      ((runBulkGuarded config s facts).2 ≠ .done → Due o s → Due o (runBulkGuarded config s facts).1) := by
  have hcases : (∃ since, (runBulkGuarded config s facts).1 = { s with deferredSince := since }) ∨
      (runBulkGuarded config s facts).2 = .done ∧
        ∃ since, (runBulkGuarded config s facts).1 = { s with deferredSince := since, workRetries := ∅, parked := ∅ } := by
    unfold runBulkGuarded
    generalize (if config.backpressure = true then shouldDefer facts.reason s.deferredSince facts.now
      else (false, s.deferredSince)) = defer
    simp only
    split
    · exact .inl ⟨_, rfl⟩
    · split
      · exact .inr ⟨rfl, _, rfl⟩
      · exact .inl ⟨_, rfl⟩
  rcases hcases with ⟨since, hs⟩ | ⟨hdone, since, hs⟩
  · rw [hs]
    refine ⟨rfl, rfl, rfl, fun _ hdue => ?_⟩
    cases o <;> exact hdue
  · rw [hs]
    exact ⟨rfl, rfl, rfl, fun hnot => absurd hdone hnot⟩

theorem startupOutcome_done {outcome : WorkOutcome} {failures : Option Nat} (h : outcome = .done) :
    (startupOutcome outcome failures).1 = .done := by
  subst h
  cases failures <;> rfl

/-- What a finished bulk section leaves on the books. -/
theorem tracked_finishBulk {outcome : WorkOutcome} {now : Instant} (hdone : outcome ≠ .done)
    (hheader : o = .header → outcome = .failed → Owed s) (h : Tracked o s) :
    Tracked o (finishBulk config s outcome now) := by
  unfold finishBulk
  simp only [if_neg hdone]
  by_cases hfailed : o = .header ∧ outcome = .failed
  · exact tracked_of_owed (owed_applyBulkOutcome.mpr (hheader hfailed.1 hfailed.2))
  · refine h.congr (by simp) (fun hdue => ?_) fun howed => owed_applyBulkOutcome.mpr howed
    refine due_applyBulkOutcome hdone (fun ho hf => hfailed ⟨ho, hf⟩) ?_
    cases o <;> exact hdue

theorem closes_bulk_done (o : Obligation) (reconciling : Bool) : o.Closes (.bulk reconciling .done) := by
  cases o with
  | change path => exact .inr (.inr ⟨reconciling, rfl⟩)
  | removal path => exact .inr (.inr (.inr ⟨reconciling, rfl⟩))
  | tree path => exact .inr (.inr ⟨reconciling, rfl⟩)
  | header => exact .inl ⟨reconciling, rfl⟩

theorem not_opens_bulk (o : Obligation) (reconciling : Bool) (outcome : WorkOutcome) :
    ¬o.Opens (.bulk reconciling outcome) := by
  cases o with
  | header =>
    rintro ⟨path, h⟩
    cases h
  | _ => exact nofun

theorem keeps_bulkPass (o : Obligation) (config : Config) (s : State) (facts : BulkFacts) :
    Keeps o s (bulkPass config s facts).2 (bulkPass config s facts).1 := by
  obtain ⟨hidle, hrefresh, hlost, hdue⟩ := runBulkGuarded_spec o config s facts
  refine .single (fun h hopen => ?_) fun hopens => absurd hopens (not_opens_bulk o _ _)
  have hdone : (startupOutcome (runBulkGuarded config s facts).2
      (runBulkGuarded config s facts).1.startupFailures).1 ≠ .done := by
    intro hdone
    rw [hdone] at hopen
    exact hopen (closes_bulk_done o false)
  refine tracked_finishBulk hdone ?_ ?_
  · intro ho hfailed
    rw [hfailed, ho] at hopen
    exact absurd (.inr rfl) hopen
  · refine h.congr hidle (fun hd => ?_) ?_
    · have := hdue (mt startupOutcome_done hdone) hd
      cases o <;> exact this
    · rintro (h | h)
      · exact .inl (hlost.trans h)
      · exact .inr (by rw [← h, ← hrefresh])

theorem pending_after {r : FilterRefresh} {outcome : WorkOutcome} (hdone : outcome ≠ .done) (now : Instant)
    (debounce : Nat) : (r.after outcome now debounce).pending = r.pending := by
  cases outcome with
  | done => exact absurd rfl hdone
  | skipped => rfl
  | failed => rfl

theorem keeps_reconcilePass (o : Obligation) (config : Config) (s : State) (facts : BulkFacts)
    (hreconciling : s.refresh.reconciling = true) :
    Keeps o s (reconcilePass config s facts).2 (reconcilePass config s facts).1 := by
  obtain ⟨hidle, hrefresh, hlost, hdue⟩ := runBulkGuarded_spec o config s facts
  refine .single (fun h hopen => ?_) fun hopens => absurd hopens (not_opens_bulk o _ _)
  have hdone : (runBulkGuarded config s facts).2 ≠ .done := by
    intro hdone
    rw [hdone] at hopen
    exact hopen (closes_bulk_done o true)
  have hpending : ((runBulkGuarded config s facts).1.refresh.after (runBulkGuarded config s facts).2 facts.now
      config.debounce).pending = s.refresh.pending := by
    rw [pending_after hdone, hrefresh]
  refine tracked_finishBulk hdone ?_ ?_
  · intro _ _
    refine .inr (hpending.trans ?_)
    rw [FilterRefresh.pending, hreconciling, Bool.or_true]
  · refine h.congr hidle (fun hd => ?_) ?_
    · have := hdue hdone hd
      cases o <;> exact this
    · rintro (h | h)
      · exact .inl (hlost.trans h)
      · exact .inr (hpending.trans h)

end Bulk

section Events

theorem keeps_queuePrefix (o : Obligation) (config : Config) (kind : EventKind) (s : State) (rel : Path)
    (facts : PathFacts) :
    Keeps o s (queuePrefix config kind s rel facts).2 (queuePrefix config kind s rel facts).1 := by
  unfold queuePrefix
  split
  · have hmem : ∀ path, path ∈ s.removedPrefixes ∨ path = rel →
        path ∈ if rel ∈ s.removedPrefixes then s.removedPrefixes else s.removedPrefixes ++ [rel] := by
      intro path hpath
      split
      · rename_i hrel
        exact hpath.elim id fun heq => heq ▸ hrel
      · exact hpath.elim (List.mem_append_left _) fun heq => List.mem_append_right _ (by simp [heq])
    refine .single (fun h _ => h.congr rfl (fun hdue => ?_) id) fun hopens => ?_
    · cases o with
      | tree path => exact hmem path (.inl hdue)
      | header => rfl
      | _ => exact hdue
    · cases o with
      | tree path =>
        cases hopens
        exact fun _ => .inl (hmem rel (.inr rfl))
      | header =>
        obtain ⟨path, heq⟩ := hopens
        cases heq
      | _ => cases hopens
  · exact .refl s

theorem keeps_noteHeader (o : Obligation) (config : Config) (s : State) (rel : Path) (now : Instant) :
    Keeps o s (noteHeader config s rel now).2 (noteHeader config s rel now).1 := by
  unfold noteHeader
  split
  · refine .single (fun h _ => h.congr rfl (fun hdue => ?_) id) fun hopens => ?_
    · cases o with
      | header => rfl
      | _ => exact hdue
    · cases o with
      | header => exact fun _ => .inl rfl
      | _ => cases hopens
  · exact .refl s

theorem recordEventTime_spec (s : State) (now : Instant) :
    ∃ times, s.recordEventTime now = { s with batchEventTimes := times } := by
  unfold State.recordEventTime
  split
  · exact ⟨_, rfl⟩
  · exact ⟨_, rfl⟩

theorem keeps_queueSource (o : Obligation) (kind : EventKind) (s : State) (rel : Path) (now : Instant) :
    Keeps o s (queueSource kind s rel now).2 (queueSource kind s rel now).1 := by
  have hchanged : Keeps o s [.changed rel] (State.recordEventTime
      { s with removedPaths := s.removedPaths.filter (· ≠ rel), pending := s.pending.insert rel now } now) := by
    obtain ⟨times, heq⟩ := recordEventTime_spec
      { s with removedPaths := s.removedPaths.filter (· ≠ rel), pending := s.pending.insert rel now } now
    rw [heq]
    refine .single (fun h hopen => h.congr rfl (fun hdue => ?_) id) fun hopens => ?_
    · cases o with
      | change path => exact hdue.imp_left fun hmem => (AList.mem_insert _).mpr (.inr hmem)
      | removal path =>
        -- only the path that came back leaves the queue
        have hne : path ≠ rel := fun heq => hopen (.inl (heq ▸ rfl))
        exact List.mem_filter.mpr ⟨hdue, decide_eq_true hne⟩
      | _ => exact hdue
    · cases o with
      | change path =>
        cases hopens
        exact fun _ => .inl (.inl ((AList.mem_insert _).mpr (.inl rfl)))
      | header =>
        obtain ⟨path, heq⟩ := hopens
        cases heq
      | _ => cases hopens
  cases kind with
  | create => exact hchanged
  | modify name => exact hchanged
  | remove =>
    refine .single (fun h _ => h.congr rfl (fun hdue => ?_) id) fun hopens => ?_
    · cases o with
      | removal path => exact List.mem_append_left _ hdue
      | _ => exact hdue
    · cases o with
      | removal path =>
        cases hopens
        exact fun _ => .inl (List.mem_append_right _ (List.mem_singleton_self rel))
      | header =>
        obtain ⟨path, heq⟩ := hopens
        cases heq
      | _ => cases hopens

theorem adoptFile_spec (now : Instant) (s : State) (rel : Path) :
    (adoptFile now s rel).refresh = s.refresh ∧ (adoptFile now s rel).lost = s.lost := by
  unfold adoptFile
  simp only
  split
  · exact ⟨rfl, rfl⟩
  · obtain ⟨times, heq⟩ := recordEventTime_spec
      { s with removedPaths := s.removedPaths.filter (· ≠ rel), pending := s.pending.insert rel now } now
    rw [heq]
    exact ⟨rfl, rfl⟩

/-- An adopted directory asks for a full reconciliation. -/
theorem keeps_adoptDir (o : Obligation) (config : Config) (s : State) (rel : Path) (facts : PathFacts) :
    Keeps o s (adoptDir config s rel facts).2 (adoptDir config s rel facts).1 := by
  unfold adoptDir
  split
  · exact .refl s
  · refine .always (tracked_of_owed (.inr ?_))
    have hrefresh : ∀ (paths : List Path) (s : State), (paths.foldl (adoptFile facts.now) s).refresh = s.refresh := by
      intro paths
      induction paths with
      | nil => exact fun s => rfl
      | cons path paths ih => exact fun s => (ih _).trans (adoptFile_spec facts.now s path).1
    cases facts.walk with
    | files paths =>
      simp only [hrefresh]
      rfl
    | overThreshold => rfl

theorem keeps_handlePath (o : Obligation) (config : Config) (kind : EventKind) (s : State) (facts : PathFacts) :
    Keeps o s (handlePath config kind s facts).2 (handlePath config kind s facts).1 := by
  unfold handlePath
  cases facts.rel with
  | none => exact .refl s
  | some rel =>
    simp only
    split
    · exact .always (tracked_of_owed (.inr rfl))
    · split
      · exact keeps_adoptDir o config s rel facts
      · split
        · exact keeps_queuePrefix o config kind s rel facts
        · exact ((keeps_queuePrefix o config kind s rel facts).trans (keeps_noteHeader o config _ rel _)).trans
            (keeps_queueSource o kind _ rel _)

theorem keeps_handlePaths (o : Obligation) (config : Config) (kind : EventKind) (s : State) (paths : List PathFacts) :
    Keeps o s (handlePaths config kind s paths).2 (handlePaths config kind s paths).1 :=
  Obliges.collect (keeps_handlePath o config kind) paths s

end Events

section Removals

theorem not_opens_removal (o : Obligation) (outcome : WorkOutcome) : ¬o.Opens (.removal outcome) := by
  cases o with
  | header =>
    rintro ⟨path, h⟩
    cases h
  | _ => exact nofun

theorem not_opens_gaveUp (o : Obligation) : ¬o.Opens .gaveUp := by
  cases o with
  | header =>
    rintro ⟨path, h⟩
    cases h
  | _ => exact nofun

/-- Emptying the removal queues is closing what stands in them. -/
theorem tracked_clearRemovals {retry : Option Instant} {e : Effect} (he : e = .removal .done ∨ e = .gaveUp)
    (h : Tracked o s) (hopen : ¬o.Closes e) :
    Tracked o { s with removedPaths := [], removedPrefixes := [], removalFailCount := 0, removalRetryAt := retry } := by
  refine h.congr rfl (fun hdue => ?_) id
  cases o with
  | removal path => exact absurd (.inr (he.imp_right .inl)) hopen
  | tree path => exact absurd (he.imp_right .inl) hopen
  | _ => exact hdue

theorem keeps_removeQueued (o : Obligation) (config : Config) (s : State) (outcome : WorkOutcome) (now : Instant) :
    Keeps o s (removeQueued config s outcome now).2 (removeQueued config s outcome now).1 := by
  have hframe : ∀ (count : Nat) (retry : Option Instant), Tracked o s →
      Tracked o { s with removalFailCount := count, removalRetryAt := retry } := by
    intro count retry h
    refine h.congr rfl (fun hdue => ?_) id
    cases o <;> exact hdue
  have hsilent : ∀ outcome, Keeps o s [.removal outcome] s := fun outcome =>
    .single (fun h _ => h) fun hopens => absurd hopens (not_opens_removal o outcome)
  unfold removeQueued
  split
  · exact .silent fun h => hframe _ _ h
  · split
    · cases outcome with
      | done =>
        refine .single (fun h hopen => ?_) fun hopens => absurd hopens (not_opens_removal o _)
        exact tracked_clearRemovals (.inl rfl) h hopen
      | skipped => exact (hsilent .skipped).trans (.silent fun h => hframe _ _ h)
      | failed =>
        simp only [applyRemovalOutcome]
        split
        · refine (hsilent .failed).trans (.single (fun h hopen => ?_) fun hopens => absurd hopens (not_opens_gaveUp o))
          exact tracked_clearRemovals (.inr rfl) h hopen
        · exact (hsilent .failed).trans (.silent fun h => hframe _ _ h)
    · exact .refl s

end Removals

section Drain

/-- Only the queues of the per-file passes differ. -/
structure SameBooks (s s' : State) : Prop where
  indexing : s'.currentlyIndexing = s.currentlyIndexing
  paths : s'.removedPaths = s.removedPaths
  trees : s'.removedPrefixes = s.removedPrefixes
  bulk : s'.bulkRetryAt = s.bulkRetryAt
  refresh : s'.refresh = s.refresh
  lost : s'.lost = s.lost
  failures : s'.removalFailCount = s.removalFailCount

theorem SameBooks.refl (s : State) : SameBooks s s := ⟨rfl, rfl, rfl, rfl, rfl, rfl, rfl⟩

theorem SameBooks.trans {s s' s'' : State} (h : SameBooks s s') (h' : SameBooks s' s'') : SameBooks s s'' :=
  ⟨h'.indexing.trans h.indexing, h'.paths.trans h.paths, h'.trees.trans h.trees, h'.bulk.trans h.bulk,
    h'.refresh.trans h.refresh, h'.lost.trans h.lost, h'.failures.trans h.failures⟩

theorem sameBooks_queues (s : State) (pending parked : Table Path Instant) (workRetries : Table Path Nat)
    (recheckQueue : List Path) :
    SameBooks s { s with pending := pending, parked := parked, workRetries := workRetries, recheckQueue := recheckQueue } :=
  ⟨rfl, rfl, rfl, rfl, rfl, rfl, rfl⟩

/-- The path is queued for a per-file pass, parked, or in hand. -/
def OnQueue (path : Path) (s : State) (hand : List Path) : Prop :=
  path ∈ s.pending ∨ path ∈ s.parked ∨ path ∈ hand

/-- A per-file section keeps the obligation where it keeps the paths on the queue. -/
theorem Held.of_books {s s' : State} {hand hand' : List Path} (h : Held o (s, hand)) (hbooks : SameBooks s s')
    (hqueue : ∀ path, o = .change path → OnQueue path s hand → OnQueue path s' hand') : Held o (s', hand') := by
  intro hcalm
  have howed : Owed s → Owed s' := by
    rintro (hlost | hpending)
    · exact .inl (hbooks.lost.trans hlost)
    · exact .inr (by rw [hbooks.refresh, hpending])
  have hheld := h (hbooks.indexing ▸ hcalm)
  cases o with
  | change path =>
    have hdue : OnQueue path s hand ∨ Owed s := by
      rcases hheld with (hp | hp) | hp | hp
      · exact .inl (.inl hp)
      · exact .inl (.inr (.inl hp))
      · exact .inr hp
      · exact .inl (.inr (.inr hp))
    rcases hdue with hdue | hdue
    · rcases hqueue path rfl hdue with hp | hp | hp
      · exact .inl (.inl hp)
      · exact .inl (.inr hp)
      · exact .inr (.inr hp)
    · exact .inr (.inl (howed hdue))
  | removal path =>
    refine hheld.imp (fun hdue => ?_) (Or.imp_left howed)
    rwa [Due, hbooks.paths]
  | tree path =>
    refine hheld.imp (fun hdue => ?_) (Or.imp_left howed)
    rwa [Due, hbooks.trees]
  | header =>
    refine hheld.imp (fun hdue => ?_) (Or.imp_left howed)
    rwa [Due, hbooks.bulk]

abbrev Holds (o : Obligation) (r : State × List Path) (effects : List Effect) (r' : State × List Path) : Prop :=
  Obliges (Held o) o.Opens o.Closes r effects r'

theorem not_opens_indexed (o : Obligation) (path : Path) : ¬o.Opens (.indexed path) ∧ ¬o.Opens (.ignored path) := by
  cases o with
  | header =>
    constructor
    · rintro ⟨path, h⟩
      cases h
    · rintro ⟨path, h⟩
      cases h
  | _ => exact ⟨nofun, nofun⟩

theorem mem_foldl_insert {now : Instant} {keys : List Path} : ∀ {m : Table Path Instant} {path : Path},
    path ∈ m ∨ path ∈ keys → path ∈ keys.foldl (fun m key => m.insert key now) m := by
  induction keys with
  | nil => exact fun h => h.resolve_right List.not_mem_nil
  | cons key keys ih =>
    intro m path h
    refine ih ?_
    rcases h with h | h
    · exact .inl ((AList.mem_insert m).mpr (.inr h))
    · rcases List.mem_cons.mp h with h | h
      · exact .inl ((AList.mem_insert m).mpr (.inl h))
      · exact .inr h

/-- Failed work is queued again, or handed back. -/
theorem requeueFailedWork_spec (debounce : Nat) (now : Instant) : ∀ (paths : List Path) (s : State),
    SameBooks s (requeueFailedWork debounce now s paths).1 ∧
      (requeueFailedWork debounce now s paths).1.parked = s.parked ∧
      ∀ path, path ∈ s.pending ∨ path ∈ paths →
        path ∈ (requeueFailedWork debounce now s paths).1.pending ∨
          path ∈ (requeueFailedWork debounce now s paths).2 := by
  intro paths
  induction paths with
  | nil => exact fun s => ⟨.refl s, rfl, fun path h => .inl (h.resolve_right List.not_mem_nil)⟩
  | cons head paths ih =>
    intro s
    rw [requeueFailedWork]
    simp only
    split
    · obtain ⟨hbooks, hparked, hqueue⟩ :=
        ih { s with workRetries := s.workRetries.erase head, pending := s.pending.erase head }
      refine ⟨(sameBooks_queues s _ _ _ _).trans hbooks, hparked, fun path h => ?_⟩
      by_cases heq : path = head
      · exact .inr (heq ▸ List.mem_cons_self)
      · refine (hqueue path ?_).imp_right (List.mem_cons_of_mem head)
        exact h.imp (fun hp => AList.mem_erase.mpr ⟨heq, hp⟩) fun hp => (List.mem_cons.mp hp).resolve_left heq
    · obtain ⟨hbooks, hparked, hqueue⟩ := ih
        { s with
          workRetries := s.workRetries.insert head ((s.workRetries.lookup head).getD 0 + 1)
          pending := s.pending.insert head
            (now + workRetryExtraDelay ((s.workRetries.lookup head).getD 0 + 1) debounce) }
      refine ⟨(sameBooks_queues s _ _ _ _).trans hbooks, hparked, fun path h => hqueue path ?_⟩
      rcases h with h | h
      · exact .inl ((AList.mem_insert _).mpr (.inr h))
      · rcases List.mem_cons.mp h with h | h
        · exact .inl ((AList.mem_insert _).mpr (.inl h))
        · exact .inr h

/-- No failed path leaves the queues. -/
theorem retryOrPark_spec (debounce : Nat) (now : Instant) (s : State) (paths : List Path) :
    SameBooks s (retryOrPark debounce now s paths) ∧
      ∀ path, OnQueue path s paths → OnQueue path (retryOrPark debounce now s paths) [] := by
  obtain ⟨hbooks, hparked, hqueue⟩ := requeueFailedWork_spec debounce now paths s
  refine ⟨hbooks.trans (sameBooks_queues _ _ _ _ _), ?_⟩
  rintro path (h | h | h)
  · rcases hqueue path (.inl h) with hp | hp
    · exact .inl hp
    · exact .inr (.inl (mem_foldl_insert (.inr hp)))
  · exact .inr (.inl (mem_foldl_insert (.inl (hparked ▸ h))))
  · rcases hqueue path (.inr h) with hp | hp
    · exact .inl hp
    · exact .inr (.inl (mem_foldl_insert (.inr hp)))

/-- A path that is finished leaves the queues with the effect that says so. -/
theorem holds_finished {r r' : State × List Path} {path : Path} {e : Effect} (he : e = .indexed path ∨ e = .ignored path)
    (hbooks : SameBooks r.1 r'.1)
    (hqueue : ∀ other, other ≠ path → OnQueue other r.1 r.2 → OnQueue other r'.1 r'.2) : Holds o r [e] r' := by
  refine .single (fun h hopen => h.of_books hbooks fun other ho hother => hqueue other ?_ hother) fun hopens => ?_
  · rintro rfl
    subst ho
    exact hopen (he.imp_right .inl)
  · rcases he with rfl | rfl
    · exact absurd hopens (not_opens_indexed o path).1
    · exact absurd hopens (not_opens_indexed o path).2

theorem holds_settleSemantic (outcome : Except WorkOutcome (List Path)) (now : Instant) (r : State × List Path)
    (path : Path) (rest : List Path) :
    Holds o (r.1, r.2 ++ path :: rest) (settleSemantic outcome now r path).2
      ((settleSemantic outcome now r path).1.1, (settleSemantic outcome now r path).1.2 ++ rest) := by
  have hfailed : Holds o (r.1, r.2 ++ path :: rest) [] (r.1, r.2 ++ [path] ++ rest) := by
    rw [List.append_assoc, List.singleton_append]
    exact .refl _
  cases outcome with
  | ok failedPaths =>
    rw [settleSemantic]
    split
    · refine holds_finished (.inl rfl) (sameBooks_queues _ _ _ _ _) fun other hne hother => ?_
      rcases hother with h | h | h
      · exact .inl h
      · exact .inr (.inl (AList.mem_erase.mpr ⟨hne, h⟩))
      · refine .inr (.inr ?_)
        rcases List.mem_append.mp h with h | h
        · exact List.mem_append_left _ h
        · exact List.mem_append_right _ ((List.mem_cons.mp h).resolve_left hne)
    · exact hfailed
  | error outcome =>
    cases outcome with
    | skipped =>
      refine .silent fun h => h.of_books (sameBooks_queues _ _ _ _ _) fun other _ hother => ?_
      rcases hother with h | h | h
      · exact .inl ((AList.mem_insert _).mpr (.inr h))
      · exact .inr (.inl h)
      · rcases List.mem_append.mp h with h | h
        · exact .inr (.inr (List.mem_append_left _ h))
        · rcases List.mem_cons.mp h with h | h
          · exact .inl ((AList.mem_insert _).mpr (.inl h))
          · exact .inr (.inr (List.mem_append_right _ h))
    | done => exact hfailed
    | failed => exact hfailed

theorem holds_collect_settle (outcome : Except WorkOutcome (List Path)) (now : Instant) : ∀ (paths : List Path)
    (r : State × List Path), Holds o (r.1, r.2 ++ paths) (collect (settleSemantic outcome now) r paths).2
      (collect (settleSemantic outcome now) r paths).1 := by
  intro paths
  induction paths with
  | nil =>
    intro r
    rw [List.append_nil]
    exact .refl r
  | cons path paths ih => exact fun r => (holds_settleSemantic outcome now r path paths).trans (ih _)

theorem holds_applySemanticOutcome (outcome : Except WorkOutcome (List Path)) (paths : List Path) (debounce : Nat)
    (now : Instant) (s : State) :
    Holds o (s, paths) (applySemanticOutcome outcome paths debounce now s).2
      ((applySemanticOutcome outcome paths debounce now s).1, []) := by
  have hsettled := holds_collect_settle (o := o) outcome now paths (s, [])
  obtain ⟨hbooks, hqueue⟩ := retryOrPark_spec debounce now (collect (settleSemantic outcome now) (s, []) paths).1.1
    (collect (settleSemantic outcome now) (s, []) paths).1.2
  have := hsettled.trans (.silent fun h => h.of_books hbooks fun path _ => hqueue path)
  rwa [List.append_nil] at this

/-- Taking a path off `pending` and putting it back changes nothing for the others. -/
theorem onQueue_erase {path other : Path} {hand : List Path} (hne : other ≠ path) (h : OnQueue other s hand) :
    OnQueue other { s with pending := s.pending.erase path } hand :=
  h.imp_left fun hp => AList.mem_erase.mpr ⟨hne, hp⟩

theorem onQueue_insert {path other : Path} {hand : List Path} {now : Instant}
    (h : other = path ∨ OnQueue other s hand) : OnQueue other { s with pending := s.pending.insert path now } hand := by
  rcases h with h | h
  · exact .inl ((AList.mem_insert _).mpr (.inl h))
  · exact h.imp_left fun hp => (AList.mem_insert _).mpr (.inr hp)

theorem onQueue_forget {path other : Path} {hand : List Path} (hne : other ≠ path) (h : OnQueue other s hand) :
    OnQueue other (s.forget path) hand :=
  h.imp_right (Or.imp_left fun hp => AList.mem_erase.mpr ⟨hne, hp⟩)

theorem onQueue_hand {path : Path} {hand hand' : List Path} (hsub : ∀ p ∈ hand, p ∈ hand') (h : OnQueue path s hand) :
    OnQueue path s hand' :=
  h.imp_right (Or.imp_right (hsub path))

theorem holds_processOne (config : Config) (work : Path → FileWork) (now : Instant) (r : State × List Path)
    (path : Path) : Holds o r (processOne config work now r path).2 (processOne config work now r path).1 := by
  obtain ⟨s, todo⟩ := r
  unfold processOne
  simp only
  split
  · refine holds_finished (.inr rfl) (sameBooks_queues _ _ _ _ _) fun other hne hother => ?_
    exact onQueue_forget hne (onQueue_erase hne hother)
  · split
    · -- no path is being indexed when the loop comes to it
      rename_i hindexing
      refine .always fun hcalm => ?_
      have hnil : s.currentlyIndexing = [] := hcalm
      rw [hnil] at hindexing
      exact absurd hindexing List.not_mem_nil
    · have hretry : Held o (s, todo) →
          Held o (retryOrPark config.debounce now { s with pending := s.pending.erase path } [path], todo) := by
        obtain ⟨hbooks, hqueue⟩ := retryOrPark_spec config.debounce now { s with pending := s.pending.erase path } [path]
        refine fun h => h.of_books ((sameBooks_queues _ _ _ _ _).trans hbooks) fun other _ hother => ?_
        rcases hother with hp | hp | hp
        · by_cases hne : other = path
          · exact onQueue_hand (fun _ h => absurd h List.not_mem_nil) (hqueue other (.inr (.inr (by simp [hne]))))
          · exact onQueue_hand (fun _ h => absurd h List.not_mem_nil)
              (hqueue other (.inl (AList.mem_erase.mpr ⟨hne, hp⟩)))
        · exact onQueue_hand (fun _ h => absurd h List.not_mem_nil) (hqueue other (.inr (.inl hp)))
        · exact .inr (.inr hp)
      have hskip : Held o (s, todo) →
          Held o ({ s with pending := (s.pending.erase path).insert path now }, todo) := by
        refine fun h => h.of_books (sameBooks_queues _ _ _ _ _) fun other _ hother => ?_
        by_cases hne : other = path
        · exact .inl ((AList.mem_insert _).mpr (.inl hne))
        · exact hother.imp_left fun hp => (AList.mem_insert _).mpr (.inr (AList.mem_erase.mpr ⟨hne, hp⟩))
      cases (work path).outcome with
      | failed => exact .silent hretry
      | skipped => exact .silent hskip
      | done =>
        simp only
        split
        · -- the path is in hand until the semantic pass
          refine .silent fun h => h.of_books ?_ fun other _ hother => ?_
          · split
            · exact sameBooks_queues _ _ _ _ _
            · exact sameBooks_queues _ _ _ _ _
          · have hhand : OnQueue other { s with pending := s.pending.erase path } (todo ++ [path]) := by
              by_cases hne : other = path
              · exact .inr (.inr (by simp [hne]))
              · exact onQueue_hand (fun p hp => List.mem_append_left _ hp) (onQueue_erase hne hother)
            split
            · exact onQueue_insert (.inr hhand)
            · exact hhand
        · refine holds_finished (.inl rfl) ?_ fun other hne hother => ?_
          · split
            · exact sameBooks_queues _ _ _ _ _
            · exact sameBooks_queues _ _ _ _ _
          · have hkept : OnQueue other (State.forget { s with pending := s.pending.erase path } path) todo :=
              onQueue_forget hne (onQueue_erase hne hother)
            split
            · exact onQueue_insert (.inr hkept)
            · exact hkept

theorem keeps_processReady (o : Obligation) (config : Config) (facts : DrainFacts) (s : State) (ready : List Path) :
    Keeps o s (processReady config facts s ready).2 (processReady config facts s ready).1 := by
  have hstructural : Holds o (s, []) _ _ :=
    Obliges.collect (holds_processOne (o := o) config facts.work facts.now) ready (s, [])
  have hall : Holds o (s, []) (processReady config facts s ready).2 ((processReady config facts s ready).1, []) := by
    unfold processReady
    simp only
    split
    · rename_i hempty
      have hnil := List.isEmpty_iff.mp hempty
      generalize collect (processOne config facts.work facts.now) (s, []) ready = r at hstructural hnil ⊢
      obtain ⟨⟨s', hand⟩, effects⟩ := r
      cases hnil
      exact hstructural
    · exact hstructural.trans (holds_applySemanticOutcome facts.semantic _ _ _ _)
  exact ⟨hall.kept, hall.opened⟩

theorem keeps_books {s' : State} (hbooks : SameBooks s s')
    (hqueue : ∀ path, OnQueue path s [] → OnQueue path s' []) : Keeps o s [] s' :=
  .silent fun h => Held.of_books h hbooks fun path _ => hqueue path

theorem keeps_drainPending (o : Obligation) (config : Config) (facts : DrainFacts) (s : State) :
    Keeps o s (drainPending config facts s).2 (drainPending config facts s).1 := by
  unfold drainPending
  generalize (if config.backpressure = true then shouldDefer facts.reason s.deferredSince facts.now
    else (false, s.deferredSince)) = defer
  simp only
  have hdefer : Keeps o s [] { s with deferredSince := defer.2 } :=
    keeps_books ⟨rfl, rfl, rfl, rfl, rfl, rfl, rfl⟩ fun _ h => h
  split
  · exact .refl s
  · split
    · refine keeps_books ⟨rfl, rfl, rfl, rfl, rfl, rfl, rfl⟩ fun path h => ?_
      exact h.imp_left fun hp => mem_foldl_insert (.inl hp)
    · exact hdefer.trans (keeps_processReady o config facts _ _)

theorem keeps_reviveDueParked (o : Obligation) (s : State) (now : Instant) : Keeps o s [] (reviveDueParked s now) := by
  refine keeps_books ⟨rfl, rfl, rfl, rfl, rfl, rfl, rfl⟩ ?_
  rintro path (h | h | h)
  · exact .inl (mem_foldl_insert (.inl h))
  · by_cases hdue : path ∈ (s.parked.rows.filter fun row => now - row.2 ≥ PARKED_RETRY_INTERVAL).map Prod.fst
    · exact .inl (mem_foldl_insert (.inr hdue))
    · refine .inr (.inl ?_)
      rw [← AList.lookup_isSome] at h ⊢
      rw [reviveDueParked, Table.lookup_deleteWhere, if_neg (by simpa using hdue)]
      exact h
  · exact absurd h List.not_mem_nil

end Drain

section Loop

theorem keeps_reloadFilter (o : Obligation) (config : Config) (s : State) (now : Instant)
    (replacement : Option WatchFilter) : Keeps o s [] (reloadFilter config s now replacement) := by
  unfold reloadFilter
  split
  · rename_i hreload
    rw [Bool.and_eq_true] at hreload
    cases replacement with
    | some filter => exact .always (tracked_of_owed (.inr rfl))
    | none =>
      refine .always (tracked_of_owed (.inr ?_))
      change (s.refresh.reload || s.refresh.reconciling) = true
      rw [hreload.1, Bool.true_or]
  · exact .refl s

theorem keeps_retryBulk (o : Obligation) (config : Config) (s : State) (facts : BulkFacts) :
    Keeps o s (retryBulk config s facts).2 (retryBulk config s facts).1 := by
  unfold retryBulk
  split
  · exact .refl s
  · split
    · rename_i hreconciling
      split
      · exact keeps_reconcilePass o config s facts hreconciling
      · exact .refl s
    · split
      · exact keeps_bulkPass o config s facts
      · exact .refl s

theorem keeps_activity (o : Obligation) (s : State) (now : Instant) : Keeps o s [] { s with lastActivity := now } :=
  keeps_books ⟨rfl, rfl, rfl, rfl, rfl, rfl, rfl⟩ fun _ h => h

theorem keeps_times (o : Obligation) (s : State) (times : List Instant) :
    Keeps o s [] { s with batchEventTimes := times } :=
  keeps_books ⟨rfl, rfl, rfl, rfl, rfl, rfl, rfl⟩ fun _ h => h

/-- Every section of an iteration keeps the obligations, whichever way it ends. -/
theorem keeps_afterEvent (o : Obligation) {s₀ : State} {effects : List Effect} (h : Keeps o s₀ effects s) (i : Input) :
    Keeps o s₀ (afterEvent config s effects i).effects (afterEvent config s effects i).state := by
  unfold afterEvent
  split
  · exact h.trans (keeps_processReady o config i.drain s _)
  · split
    · exact h
    · simp only
      have hbulk := (h.thenSilent (keeps_reloadFilter o config s i.nowReload i.replacement)).trans
        (keeps_retryBulk o config _ i.bulk)
      split
      · exact hbulk.thenSilent (keeps_activity o _ i.nowIdle)
      · have hdrained := (((hbulk.trans (keeps_removeQueued o config _ i.removal i.nowRemoval)).trans
          (keeps_drainPending o config i.drain _)).thenSilent
          (keeps_reviveDueParked o _ i.nowIdle)).thenSilent (keeps_lost o _ i.lostLate)
        split
        · exact hdrained.thenSilent (keeps_activity o _ i.nowIdle)
        · split
          · exact hdrained
          · exact hdrained

theorem keeps_iterate (o : Obligation) (config : Config) (s : State) (i : Input) :
    Keeps o s (iterate config s i).effects (iterate config s i).state := by
  have hearly := ((keeps_lost o s i.lostEarly).thenSilent (keeps_shed o _)).thenSilent (keeps_takeLost o _ i.nowLost)
  unfold iterate
  simp only
  cases i.received with
  | disconnected => exact hearly
  | timeout => exact keeps_afterEvent o hearly i
  | event kind paths =>
    have hhandled := hearly.trans (keeps_handlePaths o config kind _ paths)
    simp only
    split
    · split
      · exact (hhandled.thenSilent (keeps_times o _ [])).thenSilent (keeps_skipped o _ i.nowBatch config.debounce _)
      · exact (hhandled.thenSilent (keeps_times o _ [])).trans (keeps_bulkPass o config _ i.burst)
    · exact keeps_afterEvent o (hhandled.thenSilent (keeps_times o _ _)) i

/-- The loop keeps the obligations. -/
theorem keeps_runStatewatcher (o : Obligation) (config : Config) : ∀ (inputs : List Input) (s : State),
    Keeps o s (runStatewatcher config s inputs).effects (runStatewatcher config s inputs).state := by
  intro inputs
  induction inputs with
  | nil => exact fun s => .refl s
  | cons i inputs ih =>
    intro s
    rw [runStatewatcher]
    simp only
    split
    · exact keeps_iterate o config s i
    · exact (keeps_iterate o config s i).trans (ih _)

end Loop

end Cli
end CodeSage
