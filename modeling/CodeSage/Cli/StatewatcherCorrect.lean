import CodeSage.Cli.StatewatcherKeeps

/-!
# CodeSage.Cli.StatewatcherCorrect

Runs of the watcher. Only the removal section spends the budget of hard failures (`Aside`, `Counts`), and with
it the obligations of `StatewatcherKeeps` give what the watcher never loses (`watcher_loses_no_obligation`) and
what it loses when a bulk pass fails hard (`header_bulk_stays_scheduled`, `header_bulk_dropped`).
-/

namespace CodeSage
namespace Cli

open Lib

variable {o : Obligation} {config : Config} {s : State}

section Aside

/-- Effects that say nothing of removal passes. -/
def Effect.Quiet : Effect → Prop
  | .removal _ => False
  | .gaveUp => False
  | _ => True

/-- A section that leaves no path in `currently_indexing` and has no part in removal passes. -/
structure Aside (s : State) (effects : List Effect) (s' : State) : Prop where
  indexing : s'.currentlyIndexing = s.currentlyIndexing
  failures : s'.removalFailCount = s.removalFailCount
  quiet : ∀ e ∈ effects, e.Quiet

namespace Aside

theorem refl (s : State) : Aside s [] s := ⟨rfl, rfl, nofun⟩

theorem silent {s s' : State} (hindexing : s'.currentlyIndexing = s.currentlyIndexing)
    (hfailures : s'.removalFailCount = s.removalFailCount) : Aside s [] s' := ⟨hindexing, hfailures, nofun⟩

theorem single {s s' : State} {e : Effect} (he : e.Quiet) (hindexing : s'.currentlyIndexing = s.currentlyIndexing)
    (hfailures : s'.removalFailCount = s.removalFailCount) : Aside s [e] s' :=
  ⟨hindexing, hfailures, fun _ hmem => List.mem_singleton.mp hmem ▸ he⟩

theorem trans {s s' s'' : State} {xs ys : List Effect} (h₁ : Aside s xs s') (h₂ : Aside s' ys s'') :
    Aside s (xs ++ ys) s'' where
  indexing := h₂.indexing.trans h₁.indexing
  failures := h₂.failures.trans h₁.failures
  quiet e he := (List.mem_append.mp he).elim (h₁.quiet e) (h₂.quiet e)

theorem thenSilent {s s' s'' : State} {xs : List Effect} (h₁ : Aside s xs s') (h₂ : Aside s' [] s'') :
    Aside s xs s'' := by
  simpa using h₁.trans h₂

theorem collect {σ ι : Type} {step : σ → ι → σ × List Effect} {f : σ → State}
    (h : ∀ r i, Aside (f r) (step r i).2 (f (step r i).1)) : ∀ (is : List ι) (r : σ),
    Aside (f r) (Lib.collect step r is).2 (f (Lib.collect step r is).1) := by
  intro is
  induction is with
  | nil => exact fun r => refl (f r)
  | cons i is ih => exact fun r => (h r i).trans (ih (step r i).1)

end Aside

theorem aside_shed (s : State) : Aside s [] s.shed := by
  unfold State.shed
  split
  · exact .silent rfl rfl
  · exact .refl s

theorem aside_takeLost (s : State) (now : Instant) : Aside s [] (s.takeLost now) := by
  unfold State.takeLost
  split
  · exact .silent rfl rfl
  · exact .refl s

theorem aside_applyBulkOutcome (outcome : WorkOutcome) (s : State) (now : Instant) (debounce : Nat)
    (cooldown : Option Instant) : Aside s [] (applyBulkOutcome outcome s now debounce cooldown) := by
  cases outcome <;> exact .silent rfl rfl

theorem aside_finishBulk (config : Config) (s : State) (outcome : WorkOutcome) (now : Instant) :
    Aside s [] (finishBulk config s outcome now) := by
  unfold finishBulk
  simp only
  split
  · exact .silent (aside_applyBulkOutcome _ _ _ _ _).indexing (aside_applyBulkOutcome _ _ _ _ _).failures
  · exact .silent (aside_applyBulkOutcome _ _ _ _ _).indexing (aside_applyBulkOutcome _ _ _ _ _).failures

theorem aside_runBulkGuarded (config : Config) (s : State) (facts : BulkFacts) :
    Aside s [] (runBulkGuarded config s facts).1 := by
  unfold runBulkGuarded
  generalize (if config.backpressure = true then shouldDefer facts.reason s.deferredSince facts.now
    else (false, s.deferredSince)) = defer
  simp only
  split
  · exact .silent rfl rfl
  · split <;> exact .silent rfl rfl

theorem aside_bulkPass (config : Config) (s : State) (facts : BulkFacts) :
    Aside s (bulkPass config s facts).2 (bulkPass config s facts).1 := by
  have hran := aside_runBulkGuarded config s facts
  have hdone := aside_finishBulk config { (runBulkGuarded config s facts).1 with
    startupFailures := (startupOutcome (runBulkGuarded config s facts).2
      (runBulkGuarded config s facts).1.startupFailures).2 }
    (startupOutcome (runBulkGuarded config s facts).2 (runBulkGuarded config s facts).1.startupFailures).1 facts.now
  exact .single trivial (hdone.indexing.trans hran.indexing) (hdone.failures.trans hran.failures)

theorem aside_reconcilePass (config : Config) (s : State) (facts : BulkFacts) :
    Aside s (reconcilePass config s facts).2 (reconcilePass config s facts).1 := by
  have hran := aside_runBulkGuarded config s facts
  have hdone := aside_finishBulk config { (runBulkGuarded config s facts).1 with
    refresh := (runBulkGuarded config s facts).1.refresh.after (runBulkGuarded config s facts).2 facts.now
      config.debounce } (runBulkGuarded config s facts).2 facts.now
  exact .single trivial (hdone.indexing.trans hran.indexing) (hdone.failures.trans hran.failures)

theorem aside_recordEventTime (s : State) (now : Instant) : Aside s [] (s.recordEventTime now) := by
  unfold State.recordEventTime
  split
  · exact .silent rfl rfl
  · exact .refl s

theorem aside_adoptFile (now : Instant) (s : State) (rel : Path) : Aside s [] (adoptFile now s rel) := by
  unfold adoptFile
  simp only
  split
  · exact .silent rfl rfl
  · exact .silent (aside_recordEventTime _ now).indexing (aside_recordEventTime _ now).failures

theorem aside_adoptDir (config : Config) (s : State) (rel : Path) (facts : PathFacts) :
    Aside s (adoptDir config s rel facts).2 (adoptDir config s rel facts).1 := by
  have hfold : ∀ (now : Instant) (paths : List Path) (s : State), Aside s [] (paths.foldl (adoptFile now) s) := by
    intro now paths
    induction paths with
    | nil => exact fun s => .refl s
    | cons path paths ih => exact fun s => (aside_adoptFile now s path).thenSilent (ih _)
  unfold adoptDir
  split
  · exact .refl s
  · cases facts.walk with
    | files paths =>
      refine ⟨(hfold facts.now paths _).indexing, (hfold facts.now paths _).failures, fun e he => ?_⟩
      obtain ⟨path, -, rfl⟩ := List.mem_map.mp he
      exact trivial
    | overThreshold => exact .silent rfl rfl

theorem aside_queueSource (kind : EventKind) (s : State) (rel : Path) (now : Instant) :
    Aside s (queueSource kind s rel now).2 (queueSource kind s rel now).1 := by
  have hchanged := aside_recordEventTime
    { s with removedPaths := s.removedPaths.filter (· ≠ rel), pending := s.pending.insert rel now } now
  cases kind with
  | remove => exact .single trivial rfl rfl
  | create => exact .single trivial hchanged.indexing hchanged.failures
  | modify name => exact .single trivial hchanged.indexing hchanged.failures

theorem aside_handlePath (config : Config) (kind : EventKind) (s : State) (facts : PathFacts) :
    Aside s (handlePath config kind s facts).2 (handlePath config kind s facts).1 := by
  have hgone : ∀ rel, Aside s (queuePrefix config kind s rel facts).2 (queuePrefix config kind s rel facts).1 := by
    intro rel
    unfold queuePrefix
    split
    · exact .single trivial rfl rfl
    · exact .refl s
  have hnote : ∀ (s : State) rel, Aside s (noteHeader config s rel facts.now).2 (noteHeader config s rel facts.now).1 := by
    intro s rel
    unfold noteHeader
    split
    · exact .single trivial rfl rfl
    · exact .refl s
  unfold handlePath
  cases facts.rel with
  | none => exact .refl s
  | some rel =>
    simp only
    split
    · exact .silent rfl rfl
    · split
      · exact aside_adoptDir config s rel facts
      · split
        · exact hgone rel
        · exact ((hgone rel).trans (hnote _ rel)).trans (aside_queueSource kind _ rel _)

theorem aside_handlePaths (config : Config) (kind : EventKind) (s : State) (paths : List PathFacts) :
    Aside s (handlePaths config kind s paths).2 (handlePaths config kind s paths).1 :=
  Aside.collect (f := id) (aside_handlePath config kind) paths s

theorem SameBooks.aside {s s' : State} (h : SameBooks s s') : Aside s [] s' := .silent h.indexing h.failures

theorem aside_processOne (config : Config) (work : Path → FileWork) (now : Instant) (r : State × List Path)
    (path : Path) : Aside r.1 (processOne config work now r path).2 (processOne config work now r path).1.1 := by
  unfold processOne
  simp only
  split
  · exact .single trivial rfl rfl
  · split
    · exact .silent rfl rfl
    · cases (work path).outcome with
      | failed => exact .silent (retryOrPark_spec _ _ _ _).1.indexing (retryOrPark_spec _ _ _ _).1.failures
      | skipped => exact .silent rfl rfl
      | done =>
        simp only
        split
        · split <;> exact .silent rfl rfl
        · split <;> exact .single trivial rfl rfl

theorem aside_settleSemantic (outcome : Except WorkOutcome (List Path)) (now : Instant) (r : State × List Path)
    (path : Path) : Aside r.1 (settleSemantic outcome now r path).2 (settleSemantic outcome now r path).1.1 := by
  unfold settleSemantic
  split
  · split
    · exact .single trivial rfl rfl
    · exact .refl r.1
  · exact .silent rfl rfl
  · exact .refl r.1

theorem aside_processReady (config : Config) (facts : DrainFacts) (s : State) (ready : List Path) :
    Aside s (processReady config facts s ready).2 (processReady config facts s ready).1 := by
  have hstructural := Aside.collect (f := Prod.fst) (aside_processOne config facts.work facts.now) ready (s, [])
  unfold processReady
  simp only
  split
  · exact hstructural
  · refine hstructural.trans ?_
    have hsettled := Aside.collect (f := Prod.fst) (aside_settleSemantic facts.semantic facts.now)
      (collect (processOne config facts.work facts.now) (s, []) ready).1.2
      ((collect (processOne config facts.work facts.now) (s, []) ready).1.1, [])
    exact hsettled.thenSilent (retryOrPark_spec _ _ _ _).1.aside

theorem aside_drainPending (config : Config) (facts : DrainFacts) (s : State) :
    Aside s (drainPending config facts s).2 (drainPending config facts s).1 := by
  unfold drainPending
  generalize (if config.backpressure = true then shouldDefer facts.reason s.deferredSince facts.now
    else (false, s.deferredSince)) = defer
  simp only
  split
  · exact .refl s
  · split
    · exact .silent rfl rfl
    · have hready := aside_processReady config facts { s with deferredSince := defer.2 }
        (computeReady s.pending facts.now config.debounce)
      exact ⟨hready.indexing, hready.failures, hready.quiet⟩

theorem aside_reloadFilter (config : Config) (s : State) (now : Instant) (replacement : Option WatchFilter) :
    Aside s [] (reloadFilter config s now replacement) := by
  unfold reloadFilter
  split
  · cases replacement <;> exact .silent rfl rfl
  · exact .refl s

theorem aside_retryBulk (config : Config) (s : State) (facts : BulkFacts) :
    Aside s (retryBulk config s facts).2 (retryBulk config s facts).1 := by
  unfold retryBulk
  split
  · exact .refl s
  · split
    · split
      · exact aside_reconcilePass config s facts
      · exact .refl s
    · split
      · exact aside_bulkPass config s facts
      · exact .refl s

end Aside

section Failures

def failuresAfter (n : Nat) : Effect → Nat
  | .removal .done => 0
  | .removal .failed => n + 1
  | .gaveUp => 0
  | _ => n

/-- The hard failures of removal passes since the last one that was done, or since the watcher gave up; a skipped
pass neither counts nor starts the count anew. -/
def hardFailures (effects : List Effect) : Nat := effects.foldl failuresAfter 0

/-- The budget of the loop counts no failure that the effects do not show, and gives up only when it is spent. -/
structure Counts (s : State) (effects : List Effect) (s' : State) : Prop where
  indexing : s'.currentlyIndexing = s.currentlyIndexing
  count : ∀ n, s.removalFailCount ≤ n → s'.removalFailCount ≤ effects.foldl failuresAfter n
  gaveUp : ∀ n, s.removalFailCount ≤ n → ∀ before after, effects = before ++ .gaveUp :: after →
    MAX_REMOVAL_FAILURES ≤ before.foldl failuresAfter n

theorem foldl_failuresAfter_quiet {effects : List Effect} (h : ∀ e ∈ effects, e.Quiet) (n : Nat) :
    effects.foldl failuresAfter n = n := by
  induction effects with
  | nil => rfl
  | cons e effects ih =>
    have hstep : failuresAfter n e = n := by
      have he := h e List.mem_cons_self
      cases e with
      | removal outcome => exact absurd he id
      | gaveUp => exact absurd he id
      | _ => rfl
    rw [List.foldl_cons, hstep]
    exact ih fun e he => h e (List.mem_cons_of_mem _ he)

theorem Aside.counts {s s' : State} {effects : List Effect} (h : Aside s effects s') : Counts s effects s' where
  indexing := h.indexing
  count n hn := by
    rw [foldl_failuresAfter_quiet h.quiet, h.failures]
    exact hn
  gaveUp n _ before after heq := by
    have := h.quiet .gaveUp (heq ▸ List.mem_append_right _ List.mem_cons_self)
    exact absurd this id

theorem Counts.trans {s s' s'' : State} {xs ys : List Effect} (h₁ : Counts s xs s') (h₂ : Counts s' ys s'') :
    Counts s (xs ++ ys) s'' where
  indexing := h₂.indexing.trans h₁.indexing
  count n hn := by
    rw [List.foldl_append]
    exact h₂.count _ (h₁.count n hn)
  gaveUp n hn before after heq := by
    rcases List.append_eq_append_iff.mp heq with ⟨ws, rfl, hys⟩ | ⟨ws, hxs, hys⟩
    · rw [List.foldl_append]
      exact h₂.gaveUp _ (h₁.count n hn) ws after hys
    · cases ws with
      | nil =>
        rw [List.append_nil] at hxs
        rw [← hxs]
        exact h₂.gaveUp _ (h₁.count n hn) [] after hys.symm
      | cons w ws =>
        obtain ⟨rfl, -⟩ := List.cons.inj hys
        exact h₁.gaveUp n hn before ws hxs

/-- The removal section spends the budget on hard failures only. -/
theorem counts_removeQueued (config : Config) (s : State) (outcome : WorkOutcome) (now : Instant) :
    Counts s (removeQueued config s outcome now).2 (removeQueued config s outcome now).1 := by
  unfold removeQueued
  split
  · exact ⟨rfl, fun n _ => Nat.zero_le n, fun n _ before after heq => by simp at heq⟩
  · split
    · have hone : ∀ (before after : List Effect) outcome, [Effect.removal outcome] ≠ before ++ .gaveUp :: after := by
        intro before after outcome heq
        have hmem : Effect.gaveUp ∈ [Effect.removal outcome] := heq ▸ List.mem_append_right _ List.mem_cons_self
        cases List.mem_singleton.mp hmem
      cases outcome with
      | done => exact ⟨rfl, fun n _ => Nat.zero_le _, fun n _ before after heq => absurd heq (hone before after _)⟩
      | skipped => exact ⟨rfl, fun n hn => hn, fun n _ before after heq => absurd heq (hone before after _)⟩
      | failed =>
        simp only [applyRemovalOutcome]
        split
        · rename_i hspent
          refine ⟨rfl, fun n _ => Nat.zero_le _, fun n hn before after heq => ?_⟩
          have hbefore : before = [.removal .failed] := by
            cases before with
            | nil => cases heq
            | cons b before =>
              obtain ⟨rfl, hrest⟩ := List.cons.inj heq
              cases before with
              | nil => rfl
              | cons b' before => simp at hrest
          rw [hbefore]
          exact hspent.le.trans (Nat.add_le_add_right hn 1)
        · exact ⟨rfl, fun n hn => Nat.add_le_add_right hn 1,
            fun n _ before after heq => absurd heq (hone before after _)⟩
    · exact (Aside.refl s).counts

theorem counts_afterEvent {s₀ : State} {effects : List Effect} (h : Counts s₀ effects s) (i : Input) :
    Counts s₀ (afterEvent config s effects i).effects (afterEvent config s effects i).state := by
  unfold afterEvent
  split
  · exact h.trans (aside_processReady config i.drain s _).counts
  · split
    · exact h
    · simp only
      have hbulk : Counts s₀ (effects ++ (retryBulk config (reloadFilter config s i.nowReload i.replacement) i.bulk).2)
          (retryBulk config (reloadFilter config s i.nowReload i.replacement) i.bulk).1 := by
        have hreload := h.trans (aside_reloadFilter config s i.nowReload i.replacement).counts
        rw [List.append_nil] at hreload
        exact hreload.trans (aside_retryBulk config _ i.bulk).counts
      split
      · exact ⟨hbulk.indexing, hbulk.count, hbulk.gaveUp⟩
      · have hdrained := (hbulk.trans (counts_removeQueued config _ i.removal i.nowRemoval)).trans
          (aside_drainPending config i.drain _).counts
        split
        · exact ⟨hdrained.indexing, hdrained.count, hdrained.gaveUp⟩
        · split
          · exact ⟨hdrained.indexing, hdrained.count, hdrained.gaveUp⟩
          · exact ⟨hdrained.indexing, hdrained.count, hdrained.gaveUp⟩

theorem counts_iterate (config : Config) (s : State) (i : Input) :
    Counts s (iterate config s i).effects (iterate config s i).state := by
  have hshed := aside_shed { s with lost := s.lost || i.lostEarly }
  have hearly : Aside s [] ((State.shed { s with lost := s.lost || i.lostEarly }).takeLost i.nowLost) :=
    .silent ((aside_takeLost _ i.nowLost).indexing.trans hshed.indexing)
      ((aside_takeLost _ i.nowLost).failures.trans hshed.failures)
  unfold iterate
  simp only
  cases i.received with
  | disconnected => exact hearly.counts
  | timeout => exact counts_afterEvent hearly.counts i
  | event kind paths =>
    have hhandled := hearly.trans (aside_handlePaths config kind _ paths)
    simp only
    split
    · split
      · refine Aside.counts ⟨?_, ?_, hhandled.quiet⟩
        · exact (aside_applyBulkOutcome _ _ _ _ _).indexing.trans hhandled.indexing
        · exact (aside_applyBulkOutcome _ _ _ _ _).failures.trans hhandled.failures
      · have hcleared : Aside s _ { (handlePaths config kind
            ((State.shed { s with lost := s.lost || i.lostEarly }).takeLost i.nowLost) paths).1 with
            batchEventTimes := [] } := ⟨hhandled.indexing, hhandled.failures, hhandled.quiet⟩
        exact (hcleared.trans (aside_bulkPass config _ i.burst)).counts
    · refine counts_afterEvent ?_ i
      exact Aside.counts ⟨hhandled.indexing, hhandled.failures, hhandled.quiet⟩

theorem counts_runStatewatcher (config : Config) : ∀ (inputs : List Input) (s : State),
    Counts s (runStatewatcher config s inputs).effects (runStatewatcher config s inputs).state := by
  intro inputs
  induction inputs with
  | nil => exact fun s => (Aside.refl s).counts
  | cons i inputs ih =>
    intro s
    rw [runStatewatcher]
    simp only
    split
    · exact counts_iterate config s i
    · exact (counts_iterate config s i).trans (ih _)

end Failures

section Runs

/-- The watcher from its start. -/
def watch (config : Config) (filter : WatchFilter) (now : Instant) (inputs : List Input) : Iteration :=
  runStatewatcher config (State.start filter now) inputs

variable {filter : WatchFilter} {now : Instant} {inputs : List Input}

/-- An obligation that was opened and not closed is on the books. -/
theorem watch_due (config : Config) {before after : List Effect} {e : Effect}
    (htrace : (watch config filter now inputs).effects = before ++ e :: after) (hopens : o.Opens e)
    (hopen : ∀ d ∈ after, ¬o.Closes d) :
    Due o (watch config filter now inputs).state ∨ Owed (watch config filter now inputs).state := by
  have htracked := (keeps_runStatewatcher o config inputs (State.start filter now)).opened before e after htrace
    hopens hopen
  exact tracked_iff.mp htracked (counts_runStatewatcher config inputs (State.start filter now)).indexing

/-- The watcher gives up on removals only after their budget of hard failures. -/
theorem watch_gaveUp (config : Config) {before after : List Effect}
    (htrace : (watch config filter now inputs).effects = before ++ .gaveUp :: after) :
    MAX_REMOVAL_FAILURES ≤ hardFailures before :=
  (counts_runStatewatcher config inputs (State.start filter now)).gaveUp 0 (Nat.le_refl 0) before after htrace

/-- An event of a source file is announced. -/
theorem handlePath_announces (config : Config) {kind : EventKind} {s : State} {facts : PathFacts} {rel : Path}
    (hrel : facts.rel = some rel) (hname : Parser.fileName rel ≠ ".gitignore".toList)
    (hfile : (facts.isDir && isDirAdoptionKind kind) = false) (hsource : isSourceFile rel = true)
    (hignored : s.filter rel false = false) :
    (if kind = .remove then Effect.removed rel else .changed rel) ∈ (handlePath config kind s facts).2 := by
  have hfilter : (queuePrefix config kind s rel facts).1.filter = s.filter := by
    unfold queuePrefix
    split <;> rfl
  unfold handlePath
  simp only [hrel, hname, hfile, hsource, hfilter, hignored]
  refine List.mem_append_right _ ?_
  cases kind with
  | remove => exact List.mem_singleton_self _
  | create => exact List.mem_singleton_self _
  | modify name => exact List.mem_singleton_self _

/-- Within the budget the watcher does not give up. -/
theorem gaveUp_notMem {before after : List Effect} {e : Effect}
    (htrace : (watch config filter now inputs).effects = before ++ e :: after)
    (hbudget : ∀ upto rest, after = upto ++ rest → hardFailures (before ++ e :: upto) < MAX_REMOVAL_FAILURES) :
    Effect.gaveUp ∉ after := by
  intro hmem
  obtain ⟨upto, rest, rfl⟩ := List.append_of_mem hmem
  have hsplit : before ++ e :: (upto ++ .gaveUp :: rest) = before ++ e :: upto ++ .gaveUp :: rest := by simp
  have hspent := watch_gaveUp config (htrace.trans hsplit)
  exact absurd (hbudget upto (.gaveUp :: rest) rfl) (Nat.not_lt.mpr hspent)

theorem not_owed_of_not_busy (h : s.busy = false) :
    s.pending.keys = [] ∧ s.parked.keys = [] ∧ s.removedPaths = [] ∧ s.removedPrefixes = [] ∧
      s.bulkRetryAt = none ∧ ¬Owed s := by
  simp only [State.busy, Bool.or_eq_false_iff, Bool.not_eq_false', List.isEmpty_iff, Option.isSome_eq_false_iff,
    Option.isNone_iff_eq_none] at h
  obtain ⟨⟨⟨⟨⟨⟨⟨⟨hpending, -⟩, -⟩, hpaths⟩, htrees⟩, hparked⟩, hbulk⟩, hrefresh⟩, hlost⟩ := h
  refine ⟨hpending, hparked, hpaths, htrees, hbulk, ?_⟩
  rintro (h | h)
  · rw [hlost] at h
    cases h
  · rw [hrefresh] at h
    cases h

theorem afterEvent_idle {effects : List Effect} {i : Input} (h : (afterEvent config s effects i).exit = some .idle) :
    (afterEvent config s effects i).state.busy = false := by
  unfold afterEvent at h ⊢
  split at h
  · cases h
  · rename_i hshutdown
    split at h
    · cases h
    · rename_i hdisabled
      simp only [if_neg hshutdown, if_neg hdisabled] at h ⊢
      split at h
      · cases h
      · rename_i hreconciling
        simp only [if_neg hreconciling] at h ⊢
        split at h
        · cases h
        · rename_i hbusy
          simp only [if_neg hbusy] at h ⊢
          rw [Bool.not_eq_true] at hbusy
          split <;> exact hbusy

theorem iterate_idle {i : Input} (h : (iterate config s i).exit = some .idle) :
    (iterate config s i).state.busy = false := by
  unfold iterate at h ⊢
  simp only at h ⊢
  cases hreceived : i.received with
  | disconnected =>
    rw [hreceived] at h
    cases h
  | timeout =>
    rw [hreceived] at h
    exact afterEvent_idle h
  | event kind paths =>
    simp only [hreceived] at h ⊢
    split at h
    · split at h
      · cases h
      · cases h
    · rename_i hburst
      rw [if_neg hburst]
      exact afterEvent_idle h

theorem runStatewatcher_idle (config : Config) : ∀ (inputs : List Input) (s : State),
    (runStatewatcher config s inputs).exit = some .idle → (runStatewatcher config s inputs).state.busy = false := by
  intro inputs
  induction inputs with
  | nil => exact nofun
  | cons i inputs ih =>
    intro s h
    rw [runStatewatcher] at h ⊢
    simp only at h ⊢
    split at h
    · rename_i hexit
      exact iterate_idle h
    · exact ih _ h

/-- An iteration at one instant in which passes answer as given and nothing else happens. -/
def tick (t : Instant) (received : Received) (bulk removal work : WorkOutcome) : Input where
  lostEarly := false
  lostLate := false
  nowLost := t
  received := received
  nowBatch := t
  burst := ⟨false, bulk, t⟩
  shutdown := false
  disabled := false
  nowReload := t
  replacement := none
  bulk := ⟨false, bulk, t⟩
  removal := removal
  nowRemoval := t
  drain := ⟨false, fun _ => ⟨work, false, false⟩, .ok [], t⟩
  nowIdle := t

/-- The event of one file. -/
def fileEvent (kind : EventKind) (path : Path) (exists_ : Bool) (t : Instant) : Received :=
  .event kind [⟨some path, false, exists_, .files [], t⟩]

/-- No obligation is lost. A changed path stays queued, parked or owed until it is indexed, found ignored or
covered by a bulk pass; a removed path or prefix until a removal or bulk pass is done, the path comes back, or
the removal passes have failed hard ten times since the last that was done or that the watcher gave up on. The
watcher goes idle only with nothing queued and nothing owed. -/
theorem watcher_loses_no_obligation (config : Config) (filter : WatchFilter) (now : Instant) (inputs : List Input) :
    (∀ before path after, (watch config filter now inputs).effects = before ++ .changed path :: after →
      (∀ e ∈ after, e ≠ .indexed path ∧ e ≠ .ignored path ∧ ∀ reconciling, e ≠ .bulk reconciling .done) →
      path ∈ (watch config filter now inputs).state.pending ∨ path ∈ (watch config filter now inputs).state.parked ∨
        Owed (watch config filter now inputs).state) ∧
    (∀ before path after, (watch config filter now inputs).effects = before ++ .removed path :: after →
      (∀ e ∈ after, e ≠ .changed path ∧ e ≠ .removal .done ∧ ∀ reconciling, e ≠ .bulk reconciling .done) →
      (∀ upto rest, after = upto ++ rest → hardFailures (before ++ .removed path :: upto) < MAX_REMOVAL_FAILURES) →
      path ∈ (watch config filter now inputs).state.removedPaths ∨ Owed (watch config filter now inputs).state) ∧
    (∀ before path after, (watch config filter now inputs).effects = before ++ .removedPrefix path :: after →
      (∀ e ∈ after, e ≠ .removal .done ∧ ∀ reconciling, e ≠ .bulk reconciling .done) →
      (∀ upto rest, after = upto ++ rest → hardFailures (before ++ .removedPrefix path :: upto) < MAX_REMOVAL_FAILURES) →
      path ∈ (watch config filter now inputs).state.removedPrefixes ∨ Owed (watch config filter now inputs).state) ∧
    ((watch config filter now inputs).exit = some .idle →
      (watch config filter now inputs).state.pending.keys = [] ∧ (watch config filter now inputs).state.parked.keys = [] ∧
      (watch config filter now inputs).state.removedPaths = [] ∧
      (watch config filter now inputs).state.removedPrefixes = [] ∧ ¬Owed (watch config filter now inputs).state) := by
  refine ⟨fun before path after htrace hopen => ?_, fun before path after htrace hopen hbudget => ?_,
    fun before path after htrace hopen hbudget => ?_, fun hidle => ?_⟩
  · refine (watch_due (o := .change path) config htrace rfl fun e he => ?_).elim (Or.imp_right .inl) (.inr ∘ .inr)
    obtain ⟨hindexed, hignored, hbulk⟩ := hopen e he
    rintro (h | h | ⟨reconciling, h⟩)
    · exact hindexed h
    · exact hignored h
    · exact hbulk reconciling h
  · refine watch_due (o := .removal path) config htrace rfl fun e he => ?_
    obtain ⟨hchanged, hdone, hbulk⟩ := hopen e he
    rintro (h | h | h | ⟨reconciling, h⟩)
    · exact hchanged h
    · exact hdone h
    · exact gaveUp_notMem htrace hbudget (h ▸ he)
    · exact hbulk reconciling h
  · refine watch_due (o := .tree path) config htrace rfl fun e he => ?_
    obtain ⟨hdone, hbulk⟩ := hopen e he
    rintro (h | h | ⟨reconciling, h⟩)
    · exact hdone h
    · exact gaveUp_notMem htrace hbudget (h ▸ he)
    · exact hbulk reconciling h
  · obtain ⟨hpending, hparked, hpaths, htrees, -, howed⟩ :=
      not_owed_of_not_busy (runStatewatcher_idle config inputs (State.start filter now) hidle)
    exact ⟨hpending, hparked, hpaths, htrees, howed⟩

/-- A file is saved while the startup pass is locked out, and its own pass fails. -/
theorem watcher_loses_no_obligation_saved :
    "a.rs" ∈ (watch ⟨1000, 0, false⟩ (fun _ _ => false) 0
        [tick 0 (fileEvent .create "a.rs" true 0) .skipped .done .failed,
          tick 5000 .timeout .skipped .done .failed]).state.pending ∨
      "a.rs" ∈ (watch ⟨1000, 0, false⟩ (fun _ _ => false) 0
        [tick 0 (fileEvent .create "a.rs" true 0) .skipped .done .failed,
          tick 5000 .timeout .skipped .done .failed]).state.parked ∨
      Owed (watch ⟨1000, 0, false⟩ (fun _ _ => false) 0
        [tick 0 (fileEvent .create "a.rs" true 0) .skipped .done .failed,
          tick 5000 .timeout .skipped .done .failed]).state := by
  refine (watcher_loses_no_obligation ⟨1000, 0, false⟩ (fun _ _ => false) 0 _).1 [] "a.rs"
    [.bulk false .skipped, .bulk false .skipped] (by decide) fun e he => ?_
  simp only [List.mem_cons, List.not_mem_nil, or_false, or_self] at he
  subst he
  exact ⟨nofun, nofun, fun _ => nofun⟩

/-- The outcomes of the removal passes. -/
def removalOutcomes (effects : List Effect) : List WorkOutcome :=
  effects.filterMap fun e => match e with
    | .removal outcome => some outcome
    | _ => none

/-- The budget of hard failures is shared: the removal of `p.rs` is dropped at its first failure, after the
removal of `q.rs` has failed nine times and was locked out once. -/
theorem removal_dropped_at_first_failure :
    let inputs := tick 0 (fileEvent .remove "q.rs" false 0) .skipped .failed .done ::
      (List.range 8).map (fun n => tick (5000 * (n + 1)) .timeout .skipped .failed .done) ++
      [tick 50000 .timeout .skipped .skipped .done, tick 60000 (fileEvent .remove "p.rs" false 60000) .skipped .failed .done]
    let run := watch ⟨1000, 0, false⟩ (fun _ _ => false) 0 inputs
    run.exit = none ∧ "p.rs" ∉ run.state.removedPaths ∧ run.state.lost = false ∧ run.state.refresh.pending = false ∧
      removalOutcomes run.effects = List.replicate 9 .failed ++ [.skipped, .failed] ∧
      run.effects.drop (run.effects.length - 4) =
        [.removedPrefix "p.rs", .removed "p.rs", .removal .failed, .gaveUp] := by
  decide

/-- A bulk pass that a change of the header context has scheduled stays scheduled or owed until one is done, as
long as none fails hard outside a reconciliation of the filter. -/
theorem header_bulk_stays_scheduled (config : Config) (filter : WatchFilter) (now : Instant) (inputs : List Input)
    (before : List Effect) (path : Path) (after : List Effect)
    (htrace : (watch config filter now inputs).effects = before ++ .headerChanged path :: after)
    (hopen : ∀ e ∈ after, ∀ reconciling, e ≠ .bulk reconciling .done)
    (hsoft : ∀ e ∈ after, e ≠ .bulk false .failed) :
    (watch config filter now inputs).state.bulkRetryAt.isSome = true ∨ Owed (watch config filter now inputs).state := by
  refine watch_due (o := .header) config htrace ⟨path, rfl⟩ fun e he => ?_
  rintro (⟨reconciling, h⟩ | h)
  · exact hopen e he reconciling h
  · exact hsoft e he h

/-- A header is saved, and the bulk pass that it schedules is locked out. -/
theorem header_bulk_stays_scheduled_locked :
    (watch ⟨1000, 0, false⟩ (fun _ _ => false) 0
        [tick 0 .timeout .done .done .done, tick 5000 (fileEvent (.modify false) "a.h" true 5000) .done .done .done,
          tick 9000 .timeout .skipped .done .done]).state.bulkRetryAt.isSome = true ∨
      Owed (watch ⟨1000, 0, false⟩ (fun _ _ => false) 0
        [tick 0 .timeout .done .done .done, tick 5000 (fileEvent (.modify false) "a.h" true 5000) .done .done .done,
          tick 9000 .timeout .skipped .done .done]).state := by
  refine header_bulk_stays_scheduled ⟨1000, 0, false⟩ (fun _ _ => false) 0 _ [.bulk false .done] "a.h"
    [.changed "a.h", .bulk false .skipped] (by decide) ?_ ?_
  · intro e he reconciling
    simp only [List.mem_cons, List.not_mem_nil, or_false] at he
    rcases he with rfl | rfl
    · exact nofun
    · exact nofun
  · intro e he
    simp only [List.mem_cons, List.not_mem_nil, or_false] at he
    rcases he with rfl | rfl
    · exact nofun
    · exact nofun

/-- After the startup pass a header is saved, and the bulk pass that it schedules fails hard: nothing is scheduled
and nothing is owed. -/
theorem header_bulk_dropped :
    let run := watch ⟨1000, 0, false⟩ (fun _ _ => false) 0
      [tick 0 .timeout .done .done .done, tick 5000 (fileEvent (.modify false) "a.h" true 5000) .done .done .done,
        tick 9000 .timeout .failed .done .done]
    run.exit = none ∧
      run.effects = [.bulk false .done, .headerChanged "a.h", .changed "a.h", .bulk false .failed, .indexed "a.h"] ∧
      run.state.bulkRetryAt = none ∧ run.state.lost = false ∧ run.state.refresh.pending = false := by
  decide

end Runs

end Cli
end CodeSage
