import CodeSage.Mcp.OverviewBooks

/-!
# CodeSage.Mcp.OverviewFresh

What a stable ranking stands for. A probe that ends well has read the version of the file that its observer
has open; two probes with one generation have read it at one number of commits, since `data_version` differs
after a commit (`ReadingOk`). A producer takes its snapshot between two such probes, so a stable result is
the ranking of the state that both of them saw (`Fresh`), provided that the file it opened is the observed
one. The producer's last path check is what should tell, and it can be misled: `honest` leaves out the runs
in which it finds another file that the producer opened.
-/

namespace CodeSage
namespace Mcp
namespace Overview

open Lib Protocol

variable {α ρ : Type} {lib : Library α ρ} {s s' : Sys α ρ}

section Worlds

/-- Files only get commits, and epochs are never given again. -/
structure Later (w w' : World α) : Prop where
  files : ∀ file, w.files file <+: w'.files file
  epochs : w.epochs <+: w'.epochs

variable {w w' : World α}

theorem Later.refl (w : World α) : Later w w := ⟨fun _ => List.prefix_rfl, List.prefix_rfl⟩

theorem getElem?_of_prefix {β : Type} {xs ys : List β} (h : xs <+: ys) {k : Nat} {x : β} (hk : xs[k]? = some x) :
    ys[k]? = some x := by
  obtain ⟨zs, rfl⟩ := h
  rw [List.getElem?_append_left (List.getElem?_eq_some_iff.mp hk).1]
  exact hk

theorem Later.opened (h : Later w w') {epoch : Nat} {file : FileIdentity} (hopened : w.opened epoch = some file) :
    w'.opened epoch = some file :=
  getElem?_of_prefix h.epochs hopened

theorem Later.state (h : Later w w') {file : FileIdentity} {k : Nat} {state : α} (hstate : (w.files file)[k]? = some state) :
    (w'.files file)[k]? = some state :=
  getElem?_of_prefix (h.files file) hstate

theorem Later.commits (h : Later w w') (file : FileIdentity) : w.commits file ≤ w'.commits file :=
  (h.files file).length_le

end Worlds

section Probing

variable {w w' : World α}

/-- The observer was opened on the file of its epoch. -/
def ObserverOk (w : World α) (o : Observer) : Prop := w.opened o.epoch = some o.connection

/-- The version stands for that number of commits. -/
def VersionOk (lib : Library α ρ) (w : World α) (o : Observer) (version : Int) (commits : Nat) : Prop :=
  ObserverOk w o ∧ version = lib.dataVersion o.epoch commits ∧ commits ≤ w.commits o.connection

/-- What the last check saw. -/
def SightOk (w : World α) (file : FileIdentity) (sight : Sight) : Prop :=
  sight.file = file ∧ sight.commits ≤ sight.present ∧ sight.present ≤ w.commits file

def ProbeOk (lib : Library α ρ) (w : World α) : Probe → Prop
  | .compare _ _ (some o) => ObserverOk w o
  | .readVersion _ _ o => ObserverOk w o
  | .checkIdentity _ _ o version commits => VersionOk lib w o version commits
  | .checkPath _ _ o version commits => VersionOk lib w o version commits
  | .readPolicy _ _ o version sight => VersionOk lib w o version sight.commits ∧ SightOk w o.connection sight
  | _ => True

def ReadingOk (lib : Library α ρ) (w : World α) (generation : Generation) (sight : Sight) : Prop :=
  w.opened generation.epoch = some sight.file ∧ generation.version = lib.dataVersion generation.epoch sight.commits ∧
    SightOk w sight.file sight

/-- A probe that reads the version in an epoch sees `k` commits or more. -/
def Floor (epoch k : Nat) : Probe → Prop
  | .checkIdentity _ _ o _ commits => o.epoch = epoch → k ≤ commits
  | .checkPath _ _ o _ commits => o.epoch = epoch → k ≤ commits
  | .readPolicy _ _ o _ sight => o.epoch = epoch → k ≤ sight.commits
  | _ => True

theorem ObserverOk.later {o : Observer} (h : ObserverOk w o) (hw : Later w w') : ObserverOk w' o := hw.opened h

theorem VersionOk.later {o : Observer} {version : Int} {commits : Nat} (h : VersionOk lib w o version commits)
    (hw : Later w w') : VersionOk lib w' o version commits :=
  ⟨h.1.later hw, h.2.1, h.2.2.trans (hw.commits _)⟩

theorem SightOk.later {file : FileIdentity} {sight : Sight} (h : SightOk w file sight) (hw : Later w w') :
    SightOk w' file sight :=
  ⟨h.1, h.2.1, h.2.2.trans (hw.commits _)⟩

theorem ReadingOk.later {generation : Generation} {sight : Sight} (h : ReadingOk lib w generation sight)
    (hw : Later w w') : ReadingOk lib w' generation sight :=
  ⟨hw.opened h.1, h.2.1, h.2.2.later hw⟩

theorem ProbeOk.later {probe : Probe} (h : ProbeOk lib w probe) (hw : Later w w') : ProbeOk lib w' probe := by
  cases probe with
  | compare config identity observer =>
    cases observer with
    | none => trivial
    | some o => exact ObserverOk.later h hw
  | readVersion config identity o => exact ObserverOk.later h hw
  | checkIdentity config identity o version commits => exact VersionOk.later h hw
  | checkPath config identity o version commits => exact VersionOk.later h hw
  | readPolicy config identity o version sight => exact ⟨VersionOk.later h.1 hw, SightOk.later h.2 hw⟩
  | _ => trivial

/-- What one access of a probe gives. -/
structure Probed (lib : Library α ρ) (w : World α) (epoch k : Nat) (move : ProbeMove α) : Prop where
  later : Later w move.world
  observer : ∀ o, move.observer = some (some o) → ObserverOk move.world o
  running : ∀ probe, move.result = .running probe → ProbeOk lib move.world probe ∧ Floor epoch k probe
  found : ∀ generation sight, move.result = .found generation sight →
    ReadingOk lib move.world generation sight ∧ (generation.epoch = epoch → k ≤ sight.commits)

theorem probe_step {project : PathBuf} {observer : ObserverLock} {probe : Probe} {move : ProbeMove α} {epoch k : Nat}
    (hobserver : ∀ o, observer = some (some o) → ObserverOk w o) (hprobe : ProbeOk lib w probe)
    (hk : ∀ file, w.opened epoch = some file → k ≤ w.commits file) (hfloor : Floor epoch k probe)
    (h : probe.step lib.dataVersion w project observer = some move) : Probed lib w epoch k move := by
  have hrun : ∀ {observer : ObserverLock} {probe : Probe}, (∀ o, observer = some (some o) → ObserverOk w o) →
      ProbeOk lib w probe → Floor epoch k probe → Probed lib w epoch k ⟨w, observer, .running probe⟩ :=
    fun hobserver hprobe hfloor =>
      ⟨.refl w, hobserver, fun _ heq => by cases heq; exact ⟨hprobe, hfloor⟩, nofun⟩
  have hfail : ∀ {observer : ObserverLock} {error : ProbeError}, (∀ o, observer = some (some o) → ObserverOk w o) →
      Probed lib w epoch k ⟨w, observer, .failed error⟩ :=
    fun hobserver => ⟨.refl w, hobserver, nofun, nofun⟩
  unfold Probe.step at h
  split at h
  · cases h
    exact hrun hobserver trivial trivial
  · cases h
    exact hrun hobserver trivial trivial
  · obtain ⟨o, ho, heq⟩ := Option.map_eq_some_iff.mp h
    cases heq
    refine hrun nofun ?_ trivial
    cases o with
    | none => trivial
    | some o => exact hobserver o ho
  · cases h
    exact hrun nofun trivial trivial
  · split at h <;> cases h
    · exact hrun nofun trivial trivial
    · exact hrun nofun hprobe trivial
  · cases h
    exact hrun nofun trivial trivial
  · split at h <;> cases h
    · exact hrun nofun trivial trivial
    · exact hfail nofun
  · split at h <;> cases h
    · rename_i config identity connection hpath
      have hlater : Later w { w with epochs := w.epochs ++ [connection] } :=
        ⟨fun _ => List.prefix_rfl, List.prefix_append _ _⟩
      refine ⟨hlater, nofun, fun probe heq => ?_, nofun⟩
      cases heq
      refine ⟨?_, trivial⟩
      change (w.epochs ++ [connection])[w.epochs.length + 1 - 1]? = some connection
      simp
    · exact hfail nofun
  · cases h
    rename_i config identity o
    exact hrun nofun ⟨hprobe, rfl, Nat.le_refl _⟩ fun heq => hk _ (heq ▸ hprobe)
  · split at h <;> cases h
    · exact hrun nofun hprobe hfloor
    · exact hfail fun o heq => by cases heq; exact hprobe.1
  · rename_i config identity o version commits
    split at h <;> cases h
    · rename_i hpath
      refine hrun nofun ⟨hprobe, hpath, ?_, ?_⟩ hfloor
      · change commits ≤ w.commits (w.path project)
        rw [hpath]
        exact hprobe.2.2
      · change w.commits (w.path project) ≤ w.commits o.connection
        rw [hpath]
    · exact hfail fun o heq => by cases heq; exact hprobe.1
  · cases h
    obtain ⟨⟨ho, hversion, -⟩, hsight⟩ := hprobe
    refine ⟨.refl w, fun o heq => by cases heq; exact ho, nofun, fun generation sight heq => ?_⟩
    cases heq
    refine ⟨⟨?_, hversion, ?_⟩, hfloor⟩
    · rw [hsight.1]
      exact ho
    · rw [hsight.1]
      exact hsight

theorem probe_release {observer : ObserverLock} {probe : Probe}
    (hobserver : ∀ o, observer = some (some o) → ObserverOk w o) (hprobe : ProbeOk lib w probe) :
    ∀ o, probe.release observer = some (some o) → ObserverOk w o := by
  intro o ho
  cases probe with
  | compare config identity observer =>
    cases ho
    exact hprobe
  | readVersion config identity o' =>
    cases ho
    exact hprobe
  | checkIdentity config identity o' version commits =>
    cases ho
    exact hprobe.1
  | checkPath config identity o' version commits =>
    cases ho
    exact hprobe.1
  | readPolicy config identity o' version sight =>
    cases ho
    exact hprobe.1.1
  | opening config identity => cases ho
  | attestIdentity config identity connection => cases ho
  | attestPath config identity connection => cases ho
  | _ => exact hobserver o ho

end Probing

section Freshness

variable {w w' : World α} {readings readings' : List Reading}

/-- The ranking of the state that both probes of flight `f` saw, and that was at the path when the first of
them looked last. -/
def Fresh (lib : Library α ρ) (w : World α) (readings : List Reading) (f : Nat) (generation : Generation) (ranking : ρ) :
    Prop :=
  ∃ file n sight state, ⟨.before f, generation, ⟨n, file, n⟩⟩ ∈ readings ∧ ⟨.after f, generation, sight⟩ ∈ readings ∧
    sight.commits = n ∧ 0 < n ∧ (w.files file)[n - 1]? = some state ∧ ranking = lib.rank state generation.recurrence

/-- The producer has the snapshot of a state of `db`, no older than what its first probe saw. -/
def Shot (w : World α) (readings : List Reading) (f : Nat) (before : Generation) (db : FileIdentity) (sight : Sight) (k : Nat)
    (state : α) : Prop :=
  ⟨.before f, before, sight⟩ ∈ readings ∧ (db = sight.file → sight.present ≤ k) ∧ 0 < k ∧ (w.files db)[k - 1]? = some state

/-- A stable result is fresh, and of the generation that the flight is for. -/
def ResultOk (lib : Library α ρ) (w : World α) (readings : List Reading) (f : Nat) (generation : Generation)
    (result : Option (CachedRanking ρ)) : Prop :=
  ∀ r, result = some r → r.stable = true → r.generation = generation ∧ Fresh lib w readings f r.generation r.ranking

def ProducerOk (lib : Library α ρ) (w : World α) (readings : List Reading) (f : Nat) (generation : Generation) :
    Producer α ρ → Prop
  | .before probe => ProbeOk lib w probe
  | .openDb before => ∃ sight, ⟨.before f, before, sight⟩ ∈ readings
  | .snapshot before _ => ∃ sight, ⟨.before f, before, sight⟩ ∈ readings
  | .rank before db state => ∃ sight k, Shot w readings f before db sight k state
  | .after before db ranking probe => ∃ sight k state, Shot w readings f before db sight k state ∧
      ranking = lib.rank state before.recurrence ∧ ProbeOk lib w probe ∧ (db = sight.file → Floor before.epoch k probe)
  | .attest before db ranking after => ∃ sight k state, Shot w readings f before db sight k state ∧
      ranking = lib.rank state before.recurrence ∧ ∀ generation, after = some generation →
        ∃ sight', ⟨.after f, generation, sight'⟩ ∈ readings ∧
          (db = sight.file → generation.epoch = before.epoch → k ≤ sight'.commits)
  | .check before ranking after attested => attested = true → after = some before → Fresh lib w readings f before ranking
  | .done result => ResultOk lib w readings f generation result
  | _ => True

/-- A ranking that a call returns: its own probe saw the state too. -/
def Served (lib : Library α ρ) (w : World α) (readings : List Reading) (i : Nat) (r : CachedRanking ρ) : Prop :=
  ∃ f file n sight sight' state, ⟨.call i, r.generation, sight⟩ ∈ readings ∧ sight.commits = n ∧ sight.file = file ∧
    ⟨.before f, r.generation, ⟨n, file, n⟩⟩ ∈ readings ∧ ⟨.after f, r.generation, sight'⟩ ∈ readings ∧
    sight'.commits = n ∧ 0 < n ∧ (w.files file)[n - 1]? = some state ∧
    r.ranking = lib.rank state r.generation.recurrence

def ReplyOk (lib : Library α ρ) (w : World α) (readings : List Reading) (i : Nat) (reply : Option (CachedRanking ρ)) : Prop :=
  ∀ r, reply = some r → r.stable = true → Served lib w readings i r

variable (hw : Later w w') (hreadings : readings ⊆ readings')

include hw hreadings

theorem Fresh.later {f : Nat} {generation : Generation} {ranking : ρ} (h : Fresh lib w readings f generation ranking) :
    Fresh lib w' readings' f generation ranking := by
  obtain ⟨file, n, sight, state, hb, ha, hn, hpos, hstate, hrank⟩ := h
  exact ⟨file, n, sight, state, hreadings hb, hreadings ha, hn, hpos, hw.state hstate, hrank⟩

theorem Shot.later {f k : Nat} {before : Generation} {db : FileIdentity} {sight : Sight} {state : α}
    (h : Shot w readings f before db sight k state) : Shot w' readings' f before db sight k state :=
  ⟨hreadings h.1, h.2.1, h.2.2.1, hw.state h.2.2.2⟩

theorem ResultOk.later {f : Nat} {generation : Generation} {result : Option (CachedRanking ρ)}
    (h : ResultOk lib w readings f generation result) : ResultOk lib w' readings' f generation result :=
  fun r hr hstable => ⟨(h r hr hstable).1, (h r hr hstable).2.later hw hreadings⟩

theorem ReplyOk.later {i : Nat} {reply : Option (CachedRanking ρ)} (h : ReplyOk lib w readings i reply) :
    ReplyOk lib w' readings' i reply := by
  intro r hr hstable
  obtain ⟨f, file, n, sight, sight', state, hc, hcn, hcf, hb, ha, hn, hpos, hstate, hrank⟩ := h r hr hstable
  exact ⟨f, file, n, sight, sight', state, hreadings hc, hcn, hcf, hreadings hb, hreadings ha, hn, hpos, hw.state hstate,
    hrank⟩

theorem ProducerOk.later {f : Nat} {generation : Generation} {producer : Producer α ρ}
    (h : ProducerOk lib w readings f generation producer) : ProducerOk lib w' readings' f generation producer := by
  cases producer with
  | before probe => exact ProbeOk.later h hw
  | openDb before =>
    obtain ⟨sight, hmem⟩ := h
    exact ⟨sight, hreadings hmem⟩
  | snapshot before db =>
    obtain ⟨sight, hmem⟩ := h
    exact ⟨sight, hreadings hmem⟩
  | rank before db state =>
    obtain ⟨sight, k, hshot⟩ := h
    exact ⟨sight, k, hshot.later hw hreadings⟩
  | after before db ranking probe =>
    obtain ⟨sight, k, state, hshot, hrank, hprobe, hfloor⟩ := h
    exact ⟨sight, k, state, hshot.later hw hreadings, hrank, hprobe.later hw, hfloor⟩
  | attest before db ranking after =>
    obtain ⟨sight, k, state, hshot, hrank, hafter⟩ := h
    refine ⟨sight, k, state, hshot.later hw hreadings, hrank, fun generation heq => ?_⟩
    obtain ⟨sight', hmem, hle⟩ := hafter generation heq
    exact ⟨sight', hreadings hmem, hle⟩
  | check before ranking after attested => exact fun hattested hafter => (h hattested hafter).later hw hreadings
  | done result => exact ResultOk.later hw hreadings h
  | queued => trivial
  | completed => trivial

end Freshness

section Invariant

def CallFresh (lib : Library α ρ) (s : Sys α ρ) (i : Nat) : Pc ρ → Prop
  | .probing _ _ probe => ProbeOk lib s.world probe
  | .detached _ probe => ProbeOk lib s.world probe
  | .found _ generation => ∃ sight, ⟨.call i, generation, sight⟩ ∈ s.readings
  | .waiting f _ => ∃ flight sight, s.flights.lookup f = some flight ∧ ⟨.call i, flight.generation, sight⟩ ∈ s.readings
  | .answered _ _ reply => ReplyOk lib s.world s.readings i reply
  | .cancelling _ reply => ReplyOk lib s.world s.readings i reply
  | .returned reply => ReplyOk lib s.world s.readings i reply
  | _ => True

structure FlightFresh (lib : Library α ρ) (s : Sys α ρ) (f : Nat) (flight : Flight α ρ) : Prop where
  producer : ProducerOk lib s.world s.readings f flight.generation flight.producer
  result : ∀ result, flight.result = some result → ResultOk lib s.world s.readings f flight.generation result

/-- The ready ranking of a project. -/
def CacheState.readyOf (state : CacheState ρ) (project : PathBuf) : Option (Ready ρ) :=
  (state.projects.lookup project).bind ProjectEntry.ready

structure FreshInv (lib : Library α ρ) (s : Sys α ρ) : Prop where
  slots : ∀ slot o, s.slots slot = some (some o) → ObserverOk s.world o
  readings : ∀ r ∈ s.readings, ReadingOk lib s.world r.generation r.sight
  flights : ∀ f flight, s.flights.lookup f = some flight → FlightFresh lib s f flight
  ready : ∀ project ready, s.cache.readyOf project = some ready →
    ∃ f, Fresh lib s.world s.readings f ready.generation ready.ranking
  calls : ∀ i call, s.calls.lookup i = some call → CallFresh lib s i call.pc

theorem FreshInv.init (h : Initial s) : FreshInv lib s where
  slots slot o ho := by
    rw [h.slots] at ho
    cases ho
  readings r hr := by
    rw [h.readings] at hr
    cases hr
  flights f flight hf := by
    rw [h.flights] at hf
    cases hf
  ready project ready hready := by
    rw [CacheState.readyOf, h.projects] at hready
    cases hready
  calls i call hcall := by
    rw [h.calls] at hcall
    cases hcall

/-- Time goes on: the world, the slots and the readings change, no call, flight or entry does. -/
theorem FreshInv.later (h : FreshInv lib s) (hw : Later s.world s'.world) (hsub : s.readings ⊆ s'.readings)
    (hslots : ∀ slot o, s'.slots slot = some (some o) → ObserverOk s'.world o)
    (hreadings : ∀ r ∈ s'.readings, r ∈ s.readings ∨ ReadingOk lib s'.world r.generation r.sight)
    (hflights : s'.flights = s.flights) (hcache : s'.cache = s.cache) (hcalls : s'.calls = s.calls) : FreshInv lib s' where
  slots := hslots
  readings r hr := (hreadings r hr).elim (fun hold => (h.readings r hold).later hw) id
  flights f flight hf := by
    rw [hflights] at hf
    exact ⟨(h.flights f flight hf).producer.later hw hsub, fun result hresult =>
      ((h.flights f flight hf).result result hresult).later hw hsub⟩
  ready project ready hready := by
    rw [hcache] at hready
    obtain ⟨f, hfresh⟩ := h.ready project ready hready
    exact ⟨f, hfresh.later hw hsub⟩
  calls i call hcall := by
    rw [hcalls] at hcall
    have hold := h.calls i call hcall
    obtain ⟨project, pc⟩ := call
    cases pc with
    | start => trivial
    | slotted slot => trivial
    | probing slot probed probe => exact ProbeOk.later hold hw
    | detached probed probe => exact ProbeOk.later hold hw
    | found slot generation =>
      obtain ⟨sight, hmem⟩ := hold
      exact ⟨sight, hsub hmem⟩
    | waiting f slot =>
      obtain ⟨flight, sight, hf, hmem⟩ := hold
      exact ⟨flight, sight, by rw [hflights]; exact hf, hsub hmem⟩
    | answered f slot reply => exact ReplyOk.later hw hsub hold
    | cancelling f reply => exact ReplyOk.later hw hsub hold
    | returned reply => exact ReplyOk.later hw hsub hold

theorem FreshInv.reading (h : FreshInv lib s) {actor : Actor} {generation : Generation} {sight : Sight}
    (hmem : ⟨actor, generation, sight⟩ ∈ s.readings) : ReadingOk lib s.world generation sight :=
  h.readings _ hmem

theorem FreshInv.setPc (h : FreshInv lib s) (i : Nat) (project : PathBuf) (pc : Pc ρ) (hpc : CallFresh lib s i pc) :
    FreshInv lib (s.setPc i project pc) where
  slots := h.slots
  readings := h.readings
  flights f flight hf := ⟨(h.flights f flight hf).producer, (h.flights f flight hf).result⟩
  ready := h.ready
  calls j call hcall := by
    rw [Sys.setPc, lookup_insert] at hcall
    split at hcall
    · rename_i heq
      cases hcall
      rw [heq]
      exact hpc
    · exact h.calls j call hcall

/-- A flight keeps its generation. -/
theorem FreshInv.setFlight (h : FreshInv lib s) (f : Nat) (flight : Flight α ρ)
    (hgeneration : ∀ old, s.flights.lookup f = some old → old.generation = flight.generation)
    (hflight : FlightFresh lib s f flight) : FreshInv lib (s.setFlight f flight) where
  slots := h.slots
  readings := h.readings
  flights g x hx := by
    rw [Sys.setFlight, lookup_insert] at hx
    split at hx
    · rename_i heq
      cases hx
      rw [heq]
      exact ⟨hflight.producer, hflight.result⟩
    · exact ⟨(h.flights g x hx).producer, (h.flights g x hx).result⟩
  ready := h.ready
  calls i call hcall := by
    have hold := h.calls i call hcall
    obtain ⟨project, pc⟩ := call
    cases pc with
    | waiting g slot =>
      obtain ⟨x, sight, hx, hmem⟩ := hold
      by_cases heq : g = f
      · subst heq
        refine ⟨flight, sight, (lookup_insert _ _ _ _).trans (if_pos rfl), ?_⟩
        rw [← hgeneration x hx]
        exact hmem
      · exact ⟨x, sight, (lookup_insert _ _ _ _).trans ((if_neg heq).trans hx), hmem⟩
    | _ => exact hold

theorem FreshInv.setCache (h : FreshInv lib s) {cache : CacheState ρ}
    (hready : ∀ project ready, cache.readyOf project = some ready → s.cache.readyOf project = some ready ∨
      ∃ f, Fresh lib s.world s.readings f ready.generation ready.ranking) : FreshInv lib { s with cache := cache } where
  slots := h.slots
  readings := h.readings
  flights f flight hf := ⟨(h.flights f flight hf).producer, (h.flights f flight hf).result⟩
  ready project ready hr := (hready project ready hr).elim (h.ready project ready) id
  calls := h.calls

end Invariant

section Rankings

theorem readyOf_insert (state : CacheState ρ) (project project' : PathBuf) (entry : ProjectEntry ρ) :
    CacheState.readyOf { state with projects := state.projects.insert project entry } project' =
      if project' = project then entry.ready else state.readyOf project' := by
  rw [CacheState.readyOf, lookup_insert]
  split <;> rfl

/-- No ranking becomes ready. -/
def Drops (state state' : CacheState ρ) : Prop :=
  ∀ project ready, state'.readyOf project = some ready → state.readyOf project = some ready

theorem Drops.trans {state state' state'' : CacheState ρ} (h : Drops state state') (h' : Drops state' state'') :
    Drops state state'' :=
  fun project ready hready => h project ready (h' project ready hready)

theorem drops_insert {state : CacheState ρ} {project : PathBuf} {entry : ProjectEntry ρ}
    (h : ∀ ready, entry.ready = some ready → state.readyOf project = some ready) :
    Drops state { state with projects := state.projects.insert project entry } := by
  intro project' ready hready
  rw [readyOf_insert] at hready
  split at hready
  · rename_i heq
    rw [heq]
    exact h ready hready
  · exact hready

theorem readyOf_lookup {state : CacheState ρ} {project : PathBuf} {entry : ProjectEntry ρ}
    (h : state.projects.lookup project = some entry) : state.readyOf project = entry.ready := by
  rw [CacheState.readyOf, h]
  rfl

theorem drops_slot {state state' : CacheState ρ} {strongCount : Nat → Nat} {project : PathBuf} {slot : Option Nat}
    (h : state.slot strongCount project = some (state', slot)) : Drops state state' := by
  unfold CacheState.slot at h
  simp only at h
  split at h
  · rename_i entry hentry
    cases h
    exact drops_insert fun ready hready => (readyOf_lookup hentry).trans hready
  · split at h
    · cases h
    · cases h
      exact fun _ _ hready => hready
    · rename_i room hroom
      cases h
      have hdrops : Drops state room := by
        unfold CacheState.makeRoom at hroom
        split at hroom
        · split at hroom
          · cases hroom
          · obtain ⟨bytes, -, heq⟩ := Option.bind_eq_some_iff.mp hroom
            cases heq
            intro project' ready hready
            rw [CacheState.readyOf, lookup_erase] at hready
            split at hready
            · cases hready
            · exact hready
        · cases hroom
          exact fun _ _ hready => hready
      exact hdrops.trans (drops_insert nofun)

theorem drops_evict {bytes : Nat} : ∀ (fuel : Nat) {state state' : CacheState ρ}, state.evict bytes fuel = some state' →
    Drops state state' := by
  intro fuel
  induction fuel with
  | zero =>
    intro state state' h
    cases h
    exact fun _ _ hready => hready
  | succ fuel ih =>
    intro state state' h
    unfold CacheState.evict at h
    split at h
    · split at h
      · cases h
        exact fun _ _ hready => hready
      · rename_i path entry hvictim
        obtain ⟨left, -, hrest⟩ := Option.bind_eq_some_iff.mp h
        have hfirst : Drops state { state with
            projects := state.projects.insert path { entry with ready := none }, bytes := left } := drops_insert nofun
        exact hfirst.trans (ih hrest)
    · cases h
      exact fun _ _ hready => hready

/-- `install` makes one ranking ready. -/
theorem readyOf_install {state state' : CacheState ρ} {project : PathBuf} {result : CachedRanking ρ} {bytes : Nat}
    (h : state.install project result bytes = some state') (project' : PathBuf) (ready : Ready ρ)
    (hready : state'.readyOf project' = some ready) :
    state.readyOf project' = some ready ∨ project' = project ∧ ready = ⟨result.ranking, result.generation, bytes⟩ := by
  unfold CacheState.install at h
  split at h
  · cases h
    exact .inl hready
  · rename_i entry hentry
    obtain ⟨left, -, h⟩ := Option.bind_eq_some_iff.mp h
    obtain ⟨state₁, hevict, h⟩ := Option.bind_eq_some_iff.mp h
    have hdrops : Drops state state₁ := by
      have hfirst : Drops state { state with
          projects := state.projects.insert project { entry with ready := none }, bytes := left } := drops_insert nofun
      exact hfirst.trans (drops_evict _ hevict)
    split at h
    · cases h
      exact .inl (hdrops project' ready hready)
    · rename_i entry₁ hentry₁
      cases h
      have hinsert := readyOf_insert state₁ project project'
        { entry₁ with ready := some ⟨result.ranking, result.generation, bytes⟩ }
      by_cases heq : project' = project
      · rw [if_pos heq] at hinsert
        exact .inr ⟨heq, Option.some.inj (hready.symm.trans hinsert)⟩
      · rw [if_neg heq] at hinsert
        exact .inl (hdrops project' ready (hinsert.symm.trans hready))

theorem drops_clear (state : CacheState ρ) (project : PathBuf) (f : Nat) : Drops state (state.clear project f) := by
  unfold CacheState.clear
  split
  · exact fun _ _ hready => hready
  · rename_i entry hentry
    split
    · exact drops_insert fun ready hready => (readyOf_lookup hentry).trans hready
    · exact fun _ _ hready => hready

/-- What `publish` makes ready is the stable result of the flight of the entry. -/
theorem readyOf_publish {state state' : CacheState ρ} {f : Nat} {flight : Flight α ρ} {result : Option (CachedRanking ρ)}
    (h : state.publish lib f flight result = some state') (project : PathBuf) (ready : Ready ρ)
    (hready : state'.readyOf project = some ready) :
    state.readyOf project = some ready ∨ flight.project = project ∧ state.flightOf project = some f ∧
      ∃ r, result = some r ∧ r.stable = true ∧ ready.ranking = r.ranking ∧ ready.generation = r.generation := by
  cases result with
  | none =>
    cases h
    exact .inl hready
  | some r =>
    unfold CacheState.publish at h
    simp only at h
    split at h
    · rename_i haccepts
      rcases readyOf_install h project ready hready with hold | ⟨rfl, rfl⟩
      · exact .inl hold
      · simp only [CacheState.accepts, Bool.and_eq_true, beq_iff_eq] at haccepts
        exact .inr ⟨rfl, haccepts.1.2, r, rfl, haccepts.1.1.2, rfl, rfl⟩
    · cases h
      exact .inl hready

end Rankings

section Honest

/-- If the producer's last check finds the file that it opened, and both probes gave one generation, then it
is the file that they observed. -/
def Flight.attests (w : World α) (flight : Flight α ρ) : Bool :=
  match flight.producer with
  | .attest before db _ after =>
    after != some before || w.path flight.project != db || w.opened before.epoch == some db
  | _ => true

def honest (s : Sys α ρ) : Act α → Bool
  | .produce f => ((s.flights.lookup f).map (Flight.attests s.world)).getD true
  | _ => true

def honestStep (lib : Library α ρ) (s : Sys α ρ) (a : Act α) : Outcome (Sys α ρ) :=
  if honest s a then step lib s a else .disabled

def HonestlyReachable (lib : Library α ρ) (s : Sys α ρ) : Prop := ∃ s₀, Initial s₀ ∧ Lib.Steps (honestStep lib) s₀ s

/-- A probe of the system goes on. -/
theorem FreshInv.probe (h : FreshInv lib s) {project : PathBuf} {slot : Nat} {probe : Probe} {move : ProbeMove α}
    {epoch k : Nat} (hprobe : ProbeOk lib s.world probe)
    (hk : ∀ file, s.world.opened epoch = some file → k ≤ s.world.commits file) (hfloor : Floor epoch k probe)
    (hmove : probe.step lib.dataVersion s.world project (s.slots slot) = some move) :
    Probed lib s.world epoch k move ∧ FreshInv lib (s.probed slot move) ∧
      ∀ generation sight actor, move.result = .found generation sight →
        FreshInv lib ((s.probed slot move).record ⟨actor, generation, sight⟩) := by
  have hprobed := probe_step (h.slots slot) hprobe hk hfloor hmove
  have hslots : ∀ slot' o, Function.update s.slots slot move.observer slot' = some (some o) → ObserverOk move.world o := by
    intro slot' o ho
    by_cases heq : slot' = slot
    · rw [heq, Function.update_self] at ho
      exact hprobed.observer o ho
    · rw [Function.update_of_ne heq] at ho
      exact (h.slots slot' o ho).later hprobed.later
  refine ⟨hprobed, h.later hprobed.later (List.Subset.refl _) hslots (fun r hr => .inl hr) rfl rfl rfl, ?_⟩
  intro generation sight actor hfound
  refine h.later hprobed.later (List.subset_append_left _ _) hslots (fun r hr => ?_) rfl rfl rfl
  rcases List.mem_append.mp hr with hr | hr
  · exact .inl hr
  · obtain rfl := List.mem_singleton.mp hr
    exact .inr (hprobed.found generation sight hfound).1

theorem FreshInv.release (h : FreshInv lib s) {slot : Nat} {probe : Probe} (hprobe : ProbeOk lib s.world probe) :
    FreshInv lib (s.releaseSlot slot probe) := by
  refine h.later (.refl _) (List.Subset.refl _) (fun slot' o ho => ?_) (fun r hr => .inl hr) rfl rfl rfl
  by_cases heq : slot' = slot
  · subst heq
    change Function.update s.slots slot' _ slot' = _ at ho
    rw [Function.update_self] at ho
    exact probe_release (h.slots slot') hprobe o ho
  · change Function.update s.slots slot _ slot' = _ at ho
    rw [Function.update_of_ne heq] at ho
    exact h.slots slot' o ho

/-- The probe of a call has nothing to be compared with. -/
theorem floor_zero (epoch : Nat) (probe : Probe) : Floor epoch 0 probe := by
  cases probe with
  | checkIdentity config identity o version commits => exact fun _ => Nat.zero_le _
  | checkPath config identity o version commits => exact fun _ => Nat.zero_le _
  | readPolicy config identity o version sight => exact fun _ => Nat.zero_le _
  | _ => trivial

theorem Floor.mono {epoch k k' : Nat} {probe : Probe} (hle : k ≤ k') (h : Floor epoch k' probe) : Floor epoch k probe := by
  cases probe with
  | checkIdentity config identity o version commits => exact fun heq => hle.trans (h heq)
  | checkPath config identity o version commits => exact fun heq => hle.trans (h heq)
  | readPolicy config identity o version sight => exact fun heq => hle.trans (h heq)
  | _ => trivial

section Versions

variable (hversion : ∀ epoch, Function.Injective (lib.dataVersion epoch))

include hversion

/-- Two probes with one generation saw one number of commits of one file. -/
theorem readings_agree {w : World α} {generation : Generation} {sight sight' : Sight} (h : ReadingOk lib w generation sight)
    (h' : ReadingOk lib w generation sight') : sight.file = sight'.file ∧ sight.commits = sight'.commits :=
  ⟨Option.some.inj (h.1.symm.trans h'.1), hversion _ (h.2.1.symm.trans h'.2.1)⟩

theorem FreshInv.served (h : FreshInv lib s) {i f : Nat} {r : CachedRanking ρ} {sight : Sight}
    (hmem : ⟨.call i, r.generation, sight⟩ ∈ s.readings) (hfresh : Fresh lib s.world s.readings f r.generation r.ranking) :
    Served lib s.world s.readings i r := by
  obtain ⟨file, n, sight', state, hb, ha, hn, hpos, hstate, hrank⟩ := hfresh
  obtain ⟨hfile, hcommits⟩ := readings_agree hversion (h.reading hmem) (h.reading hb)
  exact ⟨f, file, n, sight, sight', state, hmem, hcommits, hfile, hb, ha, hn, hpos, hstate, hrank⟩

/-- Between two probes with one generation there is one state. -/
theorem FreshInv.attested (h : FreshInv lib s) {f k : Nat} {before : Generation} {db : FileIdentity} {sight sight' : Sight}
    {state : α} (hshot : Shot s.world s.readings f before db sight k state) (hdb : s.world.opened before.epoch = some db)
    (hafter : ⟨.after f, before, sight'⟩ ∈ s.readings) (hk : db = sight.file → k ≤ sight'.commits) :
    Fresh lib s.world s.readings f before (lib.rank state before.recurrence) := by
  obtain ⟨hmem, hpresent, hpos, hstate⟩ := hshot
  have hread := h.reading hmem
  obtain ⟨-, hcommits⟩ := readings_agree hversion hread (h.reading hafter)
  have hfile : db = sight.file := Option.some.inj (hdb.symm.trans hread.1)
  have h₁ := hpresent hfile
  have h₂ := hk hfile
  have h₃ : sight.commits ≤ sight.present := hread.2.2.2.1
  have hsight : sight = ⟨k, db, k⟩ := by
    obtain ⟨commits, file, present⟩ := sight
    simp only at h₁ h₃ hcommits hfile
    have hc : commits = k := by omega
    have hp : present = k := by omega
    rw [hc, hp, hfile]
  refine ⟨db, k, sight', state, hsight ▸ hmem, hafter, ?_, hpos, hstate, rfl⟩
  rw [hsight] at hcommits
  exact hcommits.symm

end Versions

theorem FreshInv.slotThen (h : FreshInv lib s) {i : Nat} {project : PathBuf} (next : Nat → Pc ρ)
    (hnext : ∀ slot, CallFresh lib s i (next slot)) (hstep : s.slotThen i project next = .next s') : FreshInv lib s' := by
  unfold Sys.slotThen at hstep
  split at hstep
  · cases hstep
  · rename_i cache hslot
    cases hstep
    exact (h.setCache fun project ready hready => .inl (drops_slot hslot project ready hready)).setPc _ _ _ nofun
  · rename_i cache slot hslot
    cases hstep
    have hcache := h.setCache fun project ready hready => .inl (drops_slot hslot project ready hready)
    refine hcache.setPc _ _ _ ?_
    have hfresh := hnext slot
    cases hpc : next slot <;> rw [hpc] at hfresh <;> exact hfresh

/-- A flight changes in what freshness does not look at. -/
theorem FreshInv.sameFlight (h : FreshInv lib s) {f : Nat} {flight : Flight α ρ}
    (hf : s.flights.lookup f = some flight) (flight' : Flight α ρ) (hgeneration : flight'.generation = flight.generation)
    (hproducer : flight'.producer = flight.producer) (hresult : flight'.result = flight.result) :
    FreshInv lib (s.setFlight f flight') := by
  refine h.setFlight f flight' (fun old hold => ?_) ⟨?_, fun result hr => ?_⟩
  · rw [hf] at hold
    cases hold
    exact hgeneration.symm
  · rw [hgeneration, hproducer]
    exact (h.flights f flight hf).producer
  · rw [hgeneration]
    exact (h.flights f flight hf).result result (hresult ▸ hr)

theorem FreshInv.dropGuard (h : FreshInv lib s) {i f : Nat} {project : PathBuf} {flight : Flight α ρ}
    {reply : Option (CachedRanking ρ)} (hf : s.flights.lookup f = some flight)
    (hreply : ReplyOk lib s.world s.readings i reply) (hdrop : s.dropGuard i project f flight reply = some s') :
    FreshInv lib s' := by
  obtain ⟨waiters, -, hdrop⟩ := Option.bind_eq_some_iff.mp hdrop
  split at hdrop
  · cases hdrop
    have hcache : FreshInv lib { s with cache := CacheState.clear { s.cache with
        retired := if flight.retired then s.cache.retired else s.cache.retired + 1 } project f } :=
      h.setCache fun project' ready hready => .inl (drops_clear { s.cache with
        retired := if flight.retired then s.cache.retired else s.cache.retired + 1 } project f project' ready hready)
    exact (hcache.sameFlight hf { flight with waiters := waiters, abandoned := true, retired := true } rfl rfl rfl).setPc
      i project (.cancelling f reply) hreply
  · cases hdrop
    exact (h.sameFlight hf { flight with waiters := waiters } rfl rfl rfl).setPc i project (.returned reply) hreply

theorem FreshInv.retire (h : FreshInv lib s) (previous : Option Nat) : FreshInv lib (s.retire previous) := by
  unfold Sys.retire
  split
  · exact h
  · rename_i f flight hbind
    obtain ⟨f', -, hmap⟩ := Option.bind_eq_some_iff.mp hbind
    obtain ⟨flight', hf', heq⟩ := Option.map_eq_some_iff.mp hmap
    cases heq
    have hcache : FreshInv lib { s with cache := { s.cache with retired := s.cache.retired + 1 } } :=
      h.setCache fun project ready hready => .inl hready
    exact hcache.sameFlight hf' { flight with retired := true } rfl rfl rfl

theorem retire_cache (s : Sys α ρ) (previous : Option Nat) :
    (s.retire previous).cache.projects = s.cache.projects ∧ (s.retire previous).readings = s.readings := by
  unfold Sys.retire
  split <;> exact ⟨rfl, rfl⟩

theorem retire_lookup {s : Sys α ρ} {previous : Option Nat} {f : Nat} (hf : s.flights.lookup f = none) :
    (s.retire previous).flights.lookup f = none := by
  unfold Sys.retire
  split
  · exact hf
  · rename_i g flight hbind
    obtain ⟨g', -, hmap⟩ := Option.bind_eq_some_iff.mp hbind
    obtain ⟨flight', hg', heq⟩ := Option.map_eq_some_iff.mp hmap
    cases heq
    refine (lookup_insert _ _ _ _).trans ((if_neg ?_).trans hf)
    rintro rfl
    rw [hf] at hg'
    cases hg'

section Versions

variable (hversion : ∀ epoch, Function.Injective (lib.dataVersion epoch))

include hversion

theorem FreshInv.enter (h : FreshInv lib s) (hinv : Inv s) {i : Nat} {project : PathBuf} {slot : Nat}
    {generation : Generation} {sight : Sight} (hmem : ⟨.call i, generation, sight⟩ ∈ s.readings) :
    FreshInv lib (s.enter i project slot generation) := by
  have hbumped : FreshInv lib { s with cache := { s.cache with sequence := s.cache.sequence + 1 } } :=
    h.setCache fun project ready hready => .inl hready
  unfold Sys.enter
  simp only
  split
  · exact hbumped.setPc _ _ _ nofun
  · rename_i entry hentry
    split
    · rename_i ranking hhit
      refine hbumped.setPc _ _ _ fun r hr hstable => ?_
      cases hr
      obtain ⟨ready, hready, hif⟩ := Option.bind_eq_some_iff.mp hhit
      split at hif
      · rename_i hgeneration
        cases hif
        subst hgeneration
        obtain ⟨f, hfresh⟩ := h.ready project ready ((readyOf_lookup hentry).trans hready)
        exact h.served hversion hmem hfresh
      · cases hif
    · split
      · rename_i f flight hexisting
        obtain ⟨f', -, hbind⟩ := Option.bind_eq_some_iff.mp hexisting
        obtain ⟨flight', hflight', hif⟩ := Option.bind_eq_some_iff.mp hbind
        split at hif
        · rename_i hjoin
          cases hif
          refine (hbumped.sameFlight hflight' { flight with waiters := flight.waiters + 1 } rfl rfl rfl).setPc _ _ _ ?_
          refine ⟨_, sight, (lookup_insert _ _ _ _).trans (if_pos rfl), ?_⟩
          change ⟨.call i, flight.generation, sight⟩ ∈ s.readings
          rw [hjoin.1]
          exact hmem
        · cases hif
      · have hnew : s.flights.lookup (s.cache.sequence + 1) = none := by
          cases hf : s.flights.lookup (s.cache.sequence + 1) with
          | none => rfl
          | some flight => exact absurd (hinv.flights _ flight hf).known (Nat.not_succ_le_self _)
        obtain ⟨hprojects, hreadings⟩ := retire_cache
          { s with cache := { s.cache with sequence := s.cache.sequence + 1 } } entry.flight
        have hfresh : s.flights.lookup (s.cache.sequence + 1) = none → (Sys.retire { s with
            cache := { s.cache with sequence := s.cache.sequence + 1 } } entry.flight).flights.lookup
              (s.cache.sequence + 1) = none := fun hnone => retire_lookup hnone
        have hflight := (hbumped.retire entry.flight).setFlight (s.cache.sequence + 1)
          { project := project, slot := slot, generation := generation }
          (fun old hold => by rw [hfresh hnew] at hold; cases hold) ⟨trivial, nofun⟩
        refine (hflight.setCache fun project' ready hready => .inl ?_).setPc _ _ _ ?_
        · refine drops_insert (fun ready hready => ?_) project' ready hready
          refine Eq.trans ?_ hready
          rw [CacheState.readyOf]
          change (AList.lookup project (Sys.retire _ entry.flight).cache.projects).bind _ = _
          rw [hprojects, hentry]
          rfl
        · refine ⟨_, sight, (lookup_insert _ _ _ _).trans (if_pos rfl), ?_⟩
          change _ ∈ (Sys.retire _ entry.flight).readings
          rw [hreadings]
          exact hmem

theorem FreshInv.stepCall (h : FreshInv lib s) (hinv : Inv s) {i : Nat} {call : Call ρ}
    (hcall : s.calls.lookup i = some call) (hstep : s.stepCall lib i call = .next s') : FreshInv lib s' := by
  have hfresh := h.calls i call hcall
  have hk : ∀ file, s.world.opened 0 = some file → 0 ≤ s.world.commits file := fun _ _ => Nat.zero_le _
  obtain ⟨project, pc⟩ := call
  unfold Sys.stepCall at hstep
  cases pc with
  | start => exact h.slotThen .slotted (fun _ => trivial) hstep
  | slotted slot => exact h.slotThen (fun probed => .probing slot probed .readConfig) (fun _ => trivial) hstep
  | probing slot probed probe =>
    simp only at hstep
    split at hstep
    · cases hstep
    · rename_i move hmove
      obtain ⟨hprobed, hworld, hrecord⟩ := h.probe hfresh hk (floor_zero 0 probe) hmove
      split at hstep
      · rename_i probe' hresult
        cases hstep
        exact hworld.setPc i project (.probing slot probed probe') (hprobed.running probe' hresult).1
      · cases hstep
        exact hworld.setPc _ _ _ nofun
      · rename_i generation sight hresult
        cases hstep
        exact (hrecord generation sight (.call i) hresult).setPc i project (.found slot generation)
          ⟨sight, List.mem_append_right _ (List.mem_singleton_self _)⟩
  | detached probed probe =>
    simp only at hstep
    split at hstep
    · cases hstep
    · rename_i move hmove
      obtain ⟨hprobed, hworld, -⟩ := h.probe hfresh hk (floor_zero 0 probe) hmove
      split at hstep
      · rename_i probe' hresult
        cases hstep
        exact hworld.setPc i project (.detached probed probe') (hprobed.running probe' hresult).1
      · cases hstep
        exact hworld.setPc _ _ _ nofun
      · cases hstep
        exact hworld.setPc _ _ _ nofun
  | found slot generation =>
    cases hstep
    obtain ⟨sight, hmem⟩ := hfresh
    exact h.enter hversion hinv hmem
  | waiting f slot =>
    simp only at hstep
    split at hstep
    · cases hstep
    · rename_i reply hresult
      cases hstep
      obtain ⟨flight, hf, hresult⟩ := Option.bind_eq_some_iff.mp hresult
      obtain ⟨flight', sight, hf', hmem⟩ := hfresh
      rw [hf] at hf'
      cases hf'
      refine h.setPc i project (.answered f slot reply) fun r hr hstable => ?_
      obtain ⟨hgeneration, hres⟩ := (h.flights f flight hf).result reply hresult r hr hstable
      exact h.served hversion (hgeneration ▸ hmem) hres
  | answered f slot reply =>
    simp only at hstep
    split at hstep
    · cases hstep
    · rename_i flight hf
      exact h.dropGuard hf hfresh (orPanic_eq_next hstep)
  | cancelling f reply =>
    simp only at hstep
    split at hstep
    · cases hstep
    · rename_i flight hf
      cases hstep
      exact (h.sameFlight hf { flight with reason := flight.reason.or (some .noConsumers) } rfl rfl rfl).setPc i project
        (.returned reply) hfresh
  | returned reply => cases hstep

end Versions

theorem FreshInv.stepDrop (h : FreshInv lib s) {i : Nat} {call : Call ρ} (hcall : s.calls.lookup i = some call)
    (hstep : s.stepDrop i call = .next s') : FreshInv lib s' := by
  have hfresh := h.calls i call hcall
  obtain ⟨project, pc⟩ := call
  unfold Sys.stepDrop at hstep
  cases pc with
  | start => cases hstep; exact h.setPc _ _ _ nofun
  | slotted slot => cases hstep; exact h.setPc _ _ _ nofun
  | probing slot probed probe => cases hstep; exact h.setPc i project (.detached probed probe) hfresh
  | found slot generation => cases hstep; exact h.setPc _ _ _ nofun
  | waiting f slot =>
    simp only at hstep
    split at hstep
    · cases hstep
    · rename_i flight hf
      have hnone : ReplyOk lib s.world s.readings i none := nofun
      exact h.dropGuard hf hnone (orPanic_eq_next hstep)
  | detached probed probe => cases hstep
  | answered f slot reply => cases hstep
  | cancelling f reply => cases hstep
  | returned reply => cases hstep

theorem FreshInv.stepFault (h : FreshInv lib s) {i : Nat} {call : Call ρ} (hcall : s.calls.lookup i = some call)
    (hstep : s.stepFault i call = .next s') : FreshInv lib s' := by
  have hfresh := h.calls i call hcall
  obtain ⟨project, pc⟩ := call
  unfold Sys.stepFault at hstep
  cases pc with
  | probing slot probed probe => cases hstep; exact (h.release hfresh).setPc _ _ _ nofun
  | detached probed probe => cases hstep; exact (h.release hfresh).setPc _ _ _ nofun
  | _ => cases hstep

/-- The producer of a flight goes on. -/
theorem FreshInv.produce (h : FreshInv lib s) {f : Nat} {flight : Flight α ρ} (hf : s.flights.lookup f = some flight)
    (producer : Producer α ρ) (hproducer : ProducerOk lib s.world s.readings f flight.generation producer) :
    FreshInv lib (s.setFlight f { flight with producer := producer }) := by
  refine h.setFlight f { flight with producer := producer } (fun old hold => ?_) ⟨hproducer, (h.flights f flight hf).result⟩
  rw [hf] at hold
  cases hold
  rfl

theorem FreshInv.complete (h : FreshInv lib s) {f : Nat} {flight : Flight α ρ} {result : Option (CachedRanking ρ)}
    (hf : s.flights.lookup f = some flight) (hdone : flight.producer = .done result)
    (hcomplete : s.complete lib f flight result = some s') : FreshInv lib s' := by
  have hresult : ResultOk lib s.world s.readings f flight.generation result := by
    have := (h.flights f flight hf).producer
    rwa [hdone] at this
  obtain ⟨retired, -, hcomplete⟩ := Option.bind_eq_some_iff.mp hcomplete
  obtain ⟨cache, hpublish, hcomplete⟩ := Option.bind_eq_some_iff.mp hcomplete
  cases hcomplete
  have hcache : FreshInv lib { s with cache := cache.clear flight.project f } := by
    refine h.setCache fun project ready hready => ?_
    have hready' := drops_clear cache flight.project f project ready hready
    rcases readyOf_publish hpublish project ready hready' with hold | ⟨-, -, r, hr, hstable, hranking, hgeneration⟩
    · exact .inl hold
    · rw [hranking, hgeneration]
      exact .inr ⟨f, (hresult r hr hstable).2⟩
  refine hcache.setFlight f { flight with retired := false, result := some result, producer := .completed }
    (fun old hold => ?_) ⟨trivial, fun result' heq => ?_⟩
  · rw [hf] at hold
    cases hold
    rfl
  · cases heq
    exact hresult

theorem FreshInv.stepFail (h : FreshInv lib s) {f : Nat} {flight : Flight α ρ} {error : ProbeError}
    (hf : s.flights.lookup f = some flight) (hstep : s.stepFail f flight error = .next s') : FreshInv lib s' := by
  have hproducer := (h.flights f flight hf).producer
  unfold Sys.stepFail at hstep
  simp only at hstep
  cases hpc : flight.producer with
  | before probe =>
    simp only [hpc] at hstep hproducer
    cases hstep
    exact (h.release hproducer).produce hf (.done none) nofun
  | after before db ranking probe =>
    simp only [hpc] at hstep hproducer
    obtain ⟨sight, k, state, hshot, hrank, hprobe, -⟩ := hproducer
    cases error with
    | unavailable =>
      cases hstep
      exact (h.release hprobe).produce hf (.attest before db ranking none) ⟨sight, k, state, hshot, hrank, nofun⟩
    | other =>
      cases hstep
      exact (h.release hprobe).produce hf (.done none) nofun
  | done result =>
    simp only [hpc] at hstep
    cases hstep
  | completed =>
    simp only [hpc] at hstep
    cases hstep
  | _ =>
    simp only [hpc] at hstep
    cases hstep
    exact h.produce hf (.done none) nofun

theorem honestStep_eq_next {a : Act α} (hstep : honestStep lib s a = .next s') :
    honest s a = true ∧ Overview.step lib s a = .next s' := by
  unfold honestStep at hstep
  split at hstep
  · exact ⟨‹_›, hstep⟩
  · cases hstep

section Producing

variable (hversion : ∀ epoch, Function.Injective (lib.dataVersion epoch))

include hversion

theorem FreshInv.stepProduce (h : FreshInv lib s) {f : Nat} {flight : Flight α ρ} (hf : s.flights.lookup f = some flight)
    (hhonest : flight.attests s.world = true) (hstep : s.stepProduce lib f flight = .next s') : FreshInv lib s' := by
  have hproducer := (h.flights f flight hf).producer
  unfold Sys.stepProduce at hstep
  simp only at hstep
  cases hpc : flight.producer with
  | queued =>
    simp only [hpc] at hstep
    cases hstep
    exact h.produce hf (.before .readConfig) trivial
  | before probe =>
    simp only [hpc] at hstep hproducer
    have hk : ∀ file, s.world.opened 0 = some file → 0 ≤ s.world.commits file := fun _ _ => Nat.zero_le _
    split at hstep
    · cases hstep
    · rename_i move hmove
      obtain ⟨hprobed, hworld, hrecord⟩ := h.probe hproducer hk (floor_zero 0 probe) hmove
      split at hstep
      · rename_i probe' hresult
        cases hstep
        exact hworld.produce hf (.before probe') (hprobed.running probe' hresult).1
      · cases hstep
        exact hworld.produce hf (.done none) nofun
      · rename_i before sight hresult
        cases hstep
        exact (hrecord before sight (.before f) hresult).produce hf (.openDb before)
          ⟨sight, List.mem_append_right _ (List.mem_singleton_self _)⟩
  | openDb before =>
    simp only [hpc] at hstep hproducer
    cases hstep
    exact h.produce hf (.snapshot before (s.world.path flight.project)) hproducer
  | snapshot before db =>
    simp only [hpc] at hstep hproducer
    obtain ⟨sight, hmem⟩ := hproducer
    split at hstep
    · cases hstep
    · rename_i state hlast
      cases hstep
      -- the snapshot is the last committed state, so it is no older than what the probe saw of that file
      have hget : (s.world.files db)[s.world.commits db - 1]? = some state := by
        rw [World.commits, ← List.getLast?_eq_getElem?, hlast]
      have hpos : 0 < s.world.commits db := by
        have hne : s.world.files db ≠ [] := by
          intro hnil
          rw [hnil] at hlast
          cases hlast
        exact List.length_pos_iff.mpr hne
      refine h.produce hf (.rank before db state) ⟨sight, s.world.commits db, hmem, fun heq => ?_, hpos, hget⟩
      rw [heq]
      exact (h.reading hmem).2.2.2.2
  | rank before db state =>
    simp only [hpc] at hstep hproducer
    cases hstep
    obtain ⟨sight, k, hshot⟩ := hproducer
    exact h.produce hf (.after before db (lib.rank state before.recurrence) .readConfig)
      ⟨sight, k, state, hshot, rfl, trivial, fun _ => trivial⟩
  | after before db ranking probe =>
    simp only [hpc] at hstep hproducer
    obtain ⟨sight, k, state, hshot, hrank, hprobe, hfloor⟩ := hproducer
    split at hstep
    · cases hstep
    · rename_i move hmove
      -- the floor holds in the epoch of the first probe, if that probe observed `db`
      obtain ⟨k', hk', hfloor', hle⟩ : ∃ k', (∀ file, s.world.opened before.epoch = some file → k' ≤ s.world.commits file) ∧
          Floor before.epoch k' probe ∧ (db = sight.file → k ≤ k') := by
        by_cases hdb : db = sight.file
        · refine ⟨k, fun file hfile => ?_, hfloor hdb, fun _ => Nat.le_refl k⟩
          have heq : file = db := by
            rw [hdb]
            exact Option.some.inj (hfile.symm.trans (h.reading hshot.1).1)
          have hlt := (List.getElem?_eq_some_iff.mp hshot.2.2.2).1
          rw [heq, World.commits]
          omega
        · exact ⟨0, fun _ _ => Nat.zero_le _, floor_zero _ _, fun heq => absurd heq hdb⟩
      obtain ⟨hprobed, hworld, hrecord⟩ := h.probe hprobe hk' hfloor' hmove
      have hshot' := hshot.later hprobed.later (List.Subset.refl _)
      split at hstep
      · rename_i probe' hresult
        cases hstep
        obtain ⟨hprobe', hfloor''⟩ := hprobed.running probe' hresult
        refine hworld.produce hf (.after before db ranking probe') ⟨sight, k, state, hshot', hrank, hprobe', fun hdb => ?_⟩
        exact Floor.mono (hle hdb) hfloor''
      · cases hstep
        exact hworld.produce hf (.attest before db ranking none) ⟨sight, k, state, hshot', hrank, nofun⟩
      · cases hstep
        exact hworld.produce hf (.done none) nofun
      · rename_i after sight' hresult
        cases hstep
        refine (hrecord after sight' (.after f) hresult).produce hf (.attest before db ranking (some after))
          ⟨sight, k, state, hshot.later hprobed.later (List.subset_append_left _ _), hrank, fun generation heq => ?_⟩
        cases heq
        refine ⟨sight', List.mem_append_right _ (List.mem_singleton_self _), fun hdb hepoch => ?_⟩
        exact (hle hdb).trans ((hprobed.found after sight' hresult).2 hepoch)
  | attest before db ranking after =>
    simp only [hpc] at hstep hproducer
    cases hstep
    obtain ⟨sight, k, state, hshot, hrank, hafter⟩ := hproducer
    refine h.produce hf (.check before ranking after (s.world.path flight.project == db)) fun hattested heq => ?_
    subst heq
    have hpath : s.world.path flight.project = db := beq_iff_eq.mp hattested
    have hdb : s.world.opened before.epoch = some db := by
      simpa [Flight.attests, hpc, hpath] using hhonest
    obtain ⟨sight', hmem', hk⟩ := hafter before rfl
    rw [hrank]
    exact h.attested hversion hshot hdb hmem' fun hfile => hk hfile rfl
  | check before ranking after attested =>
    simp only [hpc] at hstep hproducer
    cases hstep
    refine h.produce hf (.done (some ⟨ranking, before, attested && after == some before && before == flight.generation⟩))
      fun r hr hstable => ?_
    cases hr
    simp only [Bool.and_eq_true, beq_iff_eq] at hstable
    obtain ⟨⟨hattested, hafter⟩, hgeneration⟩ := hstable
    exact ⟨hgeneration, hproducer hattested hafter⟩
  | done result =>
    simp only [hpc] at hstep
    exact h.complete hf hpc (orPanic_eq_next hstep)
  | completed =>
    simp only [hpc] at hstep
    cases hstep

theorem FreshInv.step (h : FreshInv lib s) (hinv : Inv s) {a : Act α} (hhonest : honest s a = true)
    (hstep : step lib s a = .next s') : FreshInv lib s' := by
  have hworld : ∀ {w : World α}, Later s.world w → FreshInv lib { s with world := w } := fun hw =>
    h.later hw (List.Subset.refl _) (fun slot o ho => (h.slots slot o ho).later hw) (fun r hr => .inl hr) rfl rfl rfl
  cases a with
  | get i project =>
    unfold Overview.step at hstep
    simp only at hstep
    split at hstep
    · cases hstep
      exact h.setPc i project .start trivial
    · cases hstep
  | call i =>
    obtain ⟨call, hcall, hk⟩ := withCall_eq_next hstep
    exact h.stepCall hversion hinv hcall hk
  | drop i =>
    obtain ⟨call, hcall, hk⟩ := withCall_eq_next hstep
    exact h.stepDrop hcall hk
  | fault i =>
    obtain ⟨call, hcall, hk⟩ := withCall_eq_next hstep
    exact h.stepFault hcall hk
  | produce f =>
    obtain ⟨flight, hf, hk⟩ := withFlight_eq_next hstep
    refine h.stepProduce hversion hf ?_ hk
    simpa [honest, hf] using hhonest
  | fail f error =>
    obtain ⟨flight, hf, hk⟩ := withFlight_eq_next hstep
    exact h.stepFail hf hk
  | stop f reason =>
    unfold Overview.step at hstep
    simp only at hstep
    split at hstep
    · cases hstep
    · obtain ⟨flight, hf, hk⟩ := withFlight_eq_next hstep
      cases hk
      exact h.sameFlight hf { flight with reason := flight.reason.or (some reason) } rfl rfl rfl
  | commit file state =>
    cases hstep
    refine hworld ⟨fun file' => ?_, List.prefix_rfl⟩
    by_cases heq : file' = file
    · subst heq
      simp
    · simp [heq]
  | replace project file =>
    cases hstep
    exact hworld ⟨fun _ => List.prefix_rfl, List.prefix_rfl⟩
  | editConfig project config =>
    cases hstep
    exact hworld ⟨fun _ => List.prefix_rfl, List.prefix_rfl⟩
  | setRecurrence recurrence =>
    cases hstep
    exact hworld ⟨fun _ => List.prefix_rfl, List.prefix_rfl⟩

theorem HonestlyReachable.fresh (h : HonestlyReachable lib s) : Inv s ∧ FreshInv lib s := by
  obtain ⟨s₀, hinit, hsteps⟩ := h
  refine hsteps.invariant (P := fun s => Inv s ∧ FreshInv lib s) (fun s a s' hs hstep => ?_)
    ⟨Inv.init hinit, FreshInv.init hinit⟩
  obtain ⟨hhonest, hstep⟩ := honestStep_eq_next hstep
  have hkeeps : Keeps (Overview.step lib s a) := hs.1.step a
  rw [hstep] at hkeeps
  exact ⟨hkeeps, hs.2.step hversion hs.1 hhonest hstep⟩

end Producing

section Installs

theorem drops_slotThen {i : Nat} {project : PathBuf} {next : Nat → Pc ρ} (h : s.slotThen i project next = .next s') :
    Drops s.cache s'.cache := by
  unfold Sys.slotThen at h
  split at h
  · cases h
  · rename_i cache hslot
    cases h
    exact drops_slot hslot
  · rename_i cache slot hslot
    cases h
    exact drops_slot hslot

theorem drops_refl (state : CacheState ρ) : Drops state state := fun _ _ hready => hready

theorem drops_dropGuard {i f : Nat} {project : PathBuf} {flight : Flight α ρ} {reply : Option (CachedRanking ρ)}
    (h : s.dropGuard i project f flight reply = some s') : Drops s.cache s'.cache := by
  obtain ⟨waiters, -, h⟩ := Option.bind_eq_some_iff.mp h
  split at h
  · cases h
    exact drops_clear { s.cache with retired := if flight.retired then s.cache.retired else s.cache.retired + 1 } project f
  · cases h
    exact drops_refl _

theorem drops_enter (i : Nat) (project : PathBuf) (slot : Nat) (generation : Generation) :
    Drops s.cache (s.enter i project slot generation).cache := by
  unfold Sys.enter
  simp only
  split
  · exact drops_refl _
  · rename_i entry hentry
    split
    · exact drops_refl _
    · split
      · exact drops_refl _
      · obtain ⟨hprojects, -⟩ := retire_cache
          { s with cache := { s.cache with sequence := s.cache.sequence + 1 } } entry.flight
        intro project' ready hready
        change (AList.lookup project' ((Sys.retire _ entry.flight).cache.projects.insert project
          { entry with flight := some (s.cache.sequence + 1) })).bind _ = _ at hready
        rw [hprojects, lookup_insert] at hready
        split at hready
        · rename_i heq
          rw [heq]
          exact (readyOf_lookup hentry).trans hready
        · exact hready

theorem drops_call {i : Nat} {call : Call ρ} (h : s.stepCall lib i call = .next s') : Drops s.cache s'.cache := by
  unfold Sys.stepCall at h
  simp only at h
  split at h
  · exact drops_slotThen h
  · exact drops_slotThen h
  · split at h
    · cases h
    · split at h <;> cases h <;> exact drops_refl _
  · split at h
    · cases h
    · split at h <;> cases h <;> exact drops_refl _
  · cases h
    exact drops_enter _ _ _ _
  · split at h
    · cases h
    · cases h
      exact drops_refl _
  · split at h
    · cases h
    · exact drops_dropGuard (orPanic_eq_next h)
  · split at h
    · cases h
    · cases h
      exact drops_refl _
  · cases h

theorem drops_drop {i : Nat} {call : Call ρ} (h : s.stepDrop i call = .next s') : Drops s.cache s'.cache := by
  unfold Sys.stepDrop at h
  split at h
  · cases h; exact drops_refl _
  · cases h; exact drops_refl _
  · cases h; exact drops_refl _
  · cases h; exact drops_refl _
  · split at h
    · cases h
    · exact drops_dropGuard (orPanic_eq_next h)
  · cases h

theorem drops_fail {f : Nat} {flight : Flight α ρ} {error : ProbeError} (h : s.stepFail f flight error = .next s') :
    Drops s.cache s'.cache := by
  unfold Sys.stepFail at h
  simp only at h
  split at h
  · cases h; exact drops_refl _
  · split at h <;> cases h <;> exact drops_refl _
  · cases h
  · cases h
  · cases h; exact drops_refl _

/-- A producer makes its stable result ready, if its flight is the one of the entry. -/
theorem produce_ready {f : Nat} {flight : Flight α ρ} (h : s.stepProduce lib f flight = .next s') (project : PathBuf)
    (ready : Ready ρ) (hready : s'.cache.readyOf project = some ready) :
    s.cache.readyOf project = some ready ∨ flight.project = project ∧ s.cache.flightOf project = some f ∧
      ∃ r, flight.producer = .done (some r) ∧ r.stable = true ∧ ready.ranking = r.ranking ∧
        ready.generation = r.generation := by
  unfold Sys.stepProduce at h
  simp only at h
  split at h
  · cases h; exact .inl hready
  · split at h
    · cases h
    · split at h <;> cases h <;> exact .inl hready
  · cases h; exact .inl hready
  · split at h
    · cases h
    · cases h; exact .inl hready
  · cases h; exact .inl hready
  · split at h
    · cases h
    · split at h <;> cases h <;> exact .inl hready
  · cases h; exact .inl hready
  · cases h; exact .inl hready
  · rename_i result hpc
    obtain ⟨retired, -, hcomplete⟩ := Option.bind_eq_some_iff.mp (orPanic_eq_next h)
    obtain ⟨cache, hpublish, hcomplete⟩ := Option.bind_eq_some_iff.mp hcomplete
    cases hcomplete
    have hready' := drops_clear cache flight.project f project ready hready
    rcases readyOf_publish hpublish project ready hready' with hold | ⟨hproject, hflight, r, hr, hstable⟩
    · exact .inl hold
    · exact .inr ⟨hproject, hflight, r, by rw [hpc, hr], hstable⟩
  · cases h

/-- What a step makes ready: the result of the flight that the entry holds, both of whose probes gave the
generation that the flight is for. -/
def Installs (s : Sys α ρ) (a : Act α) (project : PathBuf) (ready : Ready ρ) : Prop :=
  ∃ f flight before after, a = .produce f ∧ s.flights.lookup f = some flight ∧ flight.project = project ∧
    s.cache.flightOf project = some f ∧ ready.generation = flight.generation ∧
    ⟨.before f, flight.generation, before⟩ ∈ s.readings ∧ ⟨.after f, flight.generation, after⟩ ∈ s.readings

theorem FreshInv.installs (h : FreshInv lib s) {a : Act α} (hstep : Overview.step lib s a = .next s') (project : PathBuf)
    (ready : Ready ρ) (hready : s'.cache.readyOf project = some ready) :
    s.cache.readyOf project = some ready ∨ Installs s a project ready := by
  cases a with
  | get i project' =>
    unfold Overview.step at hstep
    simp only at hstep
    split at hstep
    · cases hstep; exact .inl hready
    · cases hstep
  | call i =>
    obtain ⟨call, -, hk⟩ := withCall_eq_next hstep
    exact .inl (drops_call hk project ready hready)
  | drop i =>
    obtain ⟨call, -, hk⟩ := withCall_eq_next hstep
    exact .inl (drops_drop hk project ready hready)
  | fault i =>
    obtain ⟨call, -, hk⟩ := withCall_eq_next hstep
    unfold Sys.stepFault at hk
    split at hk <;> cases hk <;> exact .inl hready
  | produce f =>
    obtain ⟨flight, hf, hk⟩ := withFlight_eq_next hstep
    rcases produce_ready hk project ready hready with hold | ⟨hproject, hflight, r, hpc, hstable, -, hgeneration⟩
    · exact .inl hold
    · have hresult := (h.flights f flight hf).producer
      rw [hpc] at hresult
      obtain ⟨heq, file, n, sight, state, hb, ha, -⟩ := hresult r rfl hstable
      rw [heq] at hb ha hgeneration
      exact .inr ⟨f, flight, _, _, rfl, hf, hproject, hflight, hgeneration, hb, ha⟩
  | fail f error =>
    obtain ⟨flight, -, hk⟩ := withFlight_eq_next hstep
    exact .inl (drops_fail hk project ready hready)
  | stop f reason =>
    unfold Overview.step at hstep
    simp only at hstep
    split at hstep
    · cases hstep
    · obtain ⟨flight, -, hk⟩ := withFlight_eq_next hstep
      cases hk
      exact .inl hready
  | commit file state => cases hstep; exact .inl hready
  | replace project' file => cases hstep; exact .inl hready
  | editConfig project' config => cases hstep; exact .inl hready
  | setRecurrence recurrence => cases hstep; exact .inl hready

end Installs

section Results

/-- In every honest run, a stable ranking that a call returns is that of the state which the call's own probe
saw, as did the producer's two, and which was at the path at one of their checks; and a ranking becomes
ready only for the flight of the entry. -/
theorem stable_rankings_fresh (lib : Library α ρ) (hversion : ∀ epoch, Function.Injective (lib.dataVersion epoch))
    (s : Sys α ρ) (h : HonestlyReachable lib s) :
    (∀ i call r, s.calls.lookup i = some call → call.pc = .returned (some r) → r.stable = true →
      Served lib s.world s.readings i r) ∧
    ∀ a s', step lib s a = .next s' → ∀ project ready, s'.cache.readyOf project = some ready →
      s.cache.readyOf project = some ready ∨ Installs s a project ready := by
  have hfresh := (h.fresh hversion).2
  refine ⟨fun i call r hcall hpc hstable => ?_, fun a s' hstep => hfresh.installs hstep⟩
  have hreply := hfresh.calls i call hcall
  rw [hpc] at hreply
  exact hreply r rfl hstable

theorem plainLibrary_versions (epoch : Nat) : Function.Injective (plainLibrary.dataVersion epoch) :=
  fun _ _ h => Int.ofNat.inj h

def Call.answer (call : Call ρ) : Option (CachedRanking ρ) :=
  match call.pc with
  | .returned reply => reply
  | _ => none

theorem Call.returned_of_answer {call : Call ρ} {r : CachedRanking ρ} (h : call.answer = some r) : call.pc = .returned (some r) := by
  rw [Call.answer] at h
  split at h
  · rename_i reply hpc
    rw [hpc, h]
  · cases h

/-- One call, its producer, and the answer. -/
def servedActs : List (Act Nat) := getActs 0 14 ++ List.replicate 23 (.produce 3) ++ [.call 0, .call 0]

/-- A call that returns the ranking of the file at the path. -/
theorem stable_rankings_fresh_plain :
    ∃ s r, HonestlyReachable plainLibrary s ∧ r.stable = true ∧ r.ranking = 0 ∧
      Served plainLibrary s.world s.readings 0 r := by
  obtain ⟨s, hsteps, htest⟩ := steps_of_run (honestStep plainLibrary) plainSys servedActs (fun s =>
    ((s.calls.lookup 0).bind Call.answer).any fun r => r.stable && r.ranking == 0) (by decide +kernel)
  have hreach : HonestlyReachable plainLibrary s := ⟨plainSys, plainSys_initial, hsteps⟩
  rw [Option.any_eq_true] at htest
  obtain ⟨r, hanswer, htest⟩ := htest
  obtain ⟨call, hcall, hr⟩ := Option.bind_eq_some_iff.mp hanswer
  simp only [Bool.and_eq_true, beq_iff_eq] at htest
  have hserved := (stable_rankings_fresh plainLibrary plainLibrary_versions s hreach).1 0 _ r hcall (Call.returned_of_answer hr) htest.1
  exact ⟨s, r, hreach, htest.1, htest.2, hserved⟩

/-- The path names file 1 when the producer opens the database and at its last check, and file 0 at every
other access. -/
def switchedActs : List (Act Nat) :=
  getActs 0 14 ++ List.replicate 9 (.produce 3) ++ [.replace "p" 1] ++ List.replicate 3 (.produce 3) ++
    [.replace "p" 0] ++ List.replicate 8 (.produce 3) ++ [.replace "p" 1] ++ List.replicate 3 (.produce 3) ++
    [.call 0, .call 0]

/-- The ranking of file 1 is returned as a stable one for a generation of file 0. -/
theorem switched_ranking_served :
    ∃ s call r, Reachable plainLibrary s ∧ s.calls.lookup 0 = some call ∧ call.pc = .returned (some r) ∧
      r.stable = true ∧ ¬Served plainLibrary s.world s.readings 0 r := by
  obtain ⟨s, hsteps, htest⟩ := steps_of_run (step plainLibrary) plainSys switchedActs (fun s =>
    s.readings.all (fun reading => reading.sight.file == 0) && s.world.files 0 == [0] &&
    ((s.calls.lookup 0).bind Call.answer).any fun r => r.stable && r.ranking == 1) (by decide)
  rw [Bool.and_eq_true, Bool.and_eq_true, List.all_eq_true, beq_iff_eq, Option.any_eq_true] at htest
  obtain ⟨⟨hreadings, hfiles⟩, r, hanswer, htest⟩ := htest
  obtain ⟨call, hcall, hr⟩ := Option.bind_eq_some_iff.mp hanswer
  simp only [Bool.and_eq_true, beq_iff_eq] at htest
  refine ⟨s, call, r, ⟨plainSys, plainSys_initial, hsteps⟩, hcall, Call.returned_of_answer hr, htest.1, ?_⟩
  rintro ⟨f, file, n, sight, sight', state, hmem, -, hfile, -, -, -, -, hstate, hrank⟩
  have hzero : file = 0 := hfile.symm.trans (beq_iff_eq.mp (hreadings _ hmem))
  rw [hzero, hfiles] at hstate
  have hstate' : state = 0 := List.mem_singleton.mp (List.mem_of_getElem? hstate)
  rw [htest.2, hstate'] at hrank
  cases hrank

end Results

end Honest

end Overview
end Mcp
end CodeSage
