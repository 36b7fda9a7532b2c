import CodeSage.Mcp.Overview

/-!
# CodeSage.Mcp.OverviewBooks

The accounts of the ranking cache. `Inv` ties the three counters (`bytes`, `retired`, `waiters`) to what they
count and a project's entry to the one flight that is neither retired nor completed; every step keeps it
(`Inv.step`), and no subtraction underflows (`Inv.no_panic`).
-/

namespace CodeSage
namespace Mcp
namespace Overview

open Lib Protocol

variable {α ρ : Type} {lib : Library α ρ} {s s' : Sys α ρ}

section Accounts

/-- The guards that a call holds on flight `f`. -/
def Pc.guards (f : Nat) : Pc ρ → Nat
  | .waiting f' _ => if f' = f then 1 else 0
  | .answered f' _ _ => if f' = f then 1 else 0
  | _ => 0

def Sys.guards (s : Sys α ρ) (f : Nat) : Nat := Table.total (fun _ call => call.pc.guards f) s.calls

/-- A flight that runs on after it was replaced or abandoned. -/
def Flight.isRetired (flight : Flight α ρ) : Bool := flight.result.isNone && flight.retired

def Sys.retiredFlights (s : Sys α ρ) : Nat := Table.total (fun _ flight => flight.isRetired.toNat) s.flights

def CacheState.readyBytes (state : CacheState ρ) : Nat := Table.total (fun _ entry => entry.readyBytes) state.projects

structure FlightOk (s : Sys α ρ) (f : Nat) (flight : Flight α ρ) : Prop where
  known : f ≤ s.cache.sequence
  waiters : flight.waiters = s.guards f
  running : flight.producer ≠ .completed → flight.result = none
  finished : flight.result ≠ none → flight.retired = false
  registered : flight.result = none → flight.retired = false → s.cache.flightOf flight.project = some f
  left : flight.abandoned = true → flight.waiters = 0
  abandoned : flight.abandoned = true → flight.result = none → flight.retired = true
  cancelled : flight.reason = some .noConsumers → flight.abandoned = true

/-- The flight of an entry can be joined. -/
structure Joinable (project : PathBuf) (flight : Flight α ρ) : Prop where
  project : flight.project = project
  abandoned : flight.abandoned = false
  retired : flight.retired = false
  result : flight.result = none

structure CallOk (s : Sys α ρ) (call : Call ρ) : Prop where
  guarded : ∀ f, call.pc.guards f ≠ 0 → ∃ flight, s.flights.lookup f = some flight ∧ flight.project = call.project
  cancelling : ∀ f reply, call.pc = .cancelling f reply →
    ∃ flight, s.flights.lookup f = some flight ∧ flight.abandoned = true

structure Inv (s : Sys α ρ) : Prop where
  bytes : s.cache.bytes = s.cache.readyBytes
  payload : s.cache.bytes ≤ MAX_PAYLOAD
  retired : s.cache.retired = s.retiredFlights
  flights : ∀ f flight, s.flights.lookup f = some flight → FlightOk s f flight
  entries : ∀ project f, s.cache.flightOf project = some f →
    ∃ flight, s.flights.lookup f = some flight ∧ Joinable project flight
  calls : ∀ i call, s.calls.lookup i = some call → CallOk s call

theorem Inv.init (h : Initial s) : Inv s where
  bytes := by
    rw [h.bytes, CacheState.readyBytes, h.projects]
    rfl
  payload := by
    rw [h.bytes]
    exact Nat.zero_le _
  retired := by
    rw [h.retired, Sys.retiredFlights, h.flights]
    rfl
  flights f flight hf := by
    rw [h.flights] at hf
    cases hf
  entries project f hentry := by
    rw [CacheState.flightOf, h.projects] at hentry
    cases hentry
  calls i call hcall := by
    rw [h.calls] at hcall
    cases hcall

end Accounts

section Quiet

/-- The accounts do not read the world. -/
theorem Inv.congr (h : Inv s) (hcache : s'.cache = s.cache) (hflights : s'.flights = s.flights)
    (hcalls : s'.calls = s.calls) : Inv s' := by
  obtain ⟨w, slots, cache, flights, calls, readings⟩ := s
  obtain ⟨w', slots', cache', flights', calls', readings'⟩ := s'
  obtain rfl : cache' = cache := hcache
  obtain rfl : flights' = flights := hflights
  obtain rfl : calls' = calls := hcalls
  exact ⟨h.bytes, h.payload, h.retired, fun f flight hf =>
    let ok := h.flights f flight hf
    ⟨ok.known, ok.waiters, ok.running, ok.finished, ok.registered, ok.left, ok.abandoned, ok.cancelled⟩,
    h.entries, fun i call hcall => ⟨(h.calls i call hcall).guarded, (h.calls i call hcall).cancelling⟩⟩

theorem guards_setPc (s : Sys α ρ) (i : Nat) (project : PathBuf) (pc : Pc ρ) (f : Nat) :
    (s.setPc i project pc).guards f + ((s.calls.lookup i).map fun call => call.pc.guards f).getD 0 =
      s.guards f + pc.guards f :=
  Table.total_insert (fun _ (call : Call ρ) => call.pc.guards f) s.calls i ⟨project, pc⟩

/-- A call goes on without taking or leaving a guard. -/
theorem Inv.setPc (h : Inv s) {i : Nat} {project : PathBuf} {pc : Pc ρ}
    (hguards : ∀ f, pc.guards f = ((s.calls.lookup i).map fun call => call.pc.guards f).getD 0)
    (hok : CallOk s ⟨project, pc⟩) : Inv (s.setPc i project pc) where
  bytes := h.bytes
  payload := h.payload
  retired := h.retired
  flights f flight hf := by
    have ok := h.flights f flight hf
    have hsame : (s.setPc i project pc).guards f = s.guards f := by
      have := guards_setPc s i project pc f
      rw [hguards f] at this
      omega
    exact ⟨ok.known, by rw [ok.waiters, hsame], ok.running, ok.finished, ok.registered, ok.left, ok.abandoned,
      ok.cancelled⟩
  entries := h.entries
  calls j call hcall := by
    rw [Sys.setPc, lookup_insert] at hcall
    split at hcall
    · cases hcall
      exact ⟨hok.guarded, hok.cancelling⟩
    · exact ⟨(h.calls j call hcall).guarded, (h.calls j call hcall).cancelling⟩

/-- Two states of a flight that the accounts do not tell apart. -/
structure Like (flight flight' : Flight α ρ) : Prop where
  project : flight'.project = flight.project
  waiters : flight'.waiters = flight.waiters
  abandoned : flight'.abandoned = flight.abandoned
  result : flight'.result = flight.result
  retired : flight'.retired = flight.retired
  cancelled : flight'.reason = some .noConsumers → flight.reason = some .noConsumers ∨ flight.abandoned = true

theorem retiredFlights_setFlight (s : Sys α ρ) (f : Nat) (flight : Flight α ρ) :
    (s.setFlight f flight).retiredFlights + ((s.flights.lookup f).map fun flight => flight.isRetired.toNat).getD 0 =
      s.retiredFlights + flight.isRetired.toNat :=
  Table.total_insert (fun _ (flight : Flight α ρ) => flight.isRetired.toNat) s.flights f flight

theorem Inv.setFlight (h : Inv s) {f : Nat} {flight flight' : Flight α ρ} (hf : s.flights.lookup f = some flight)
    (hlike : Like flight flight') (hrunning : flight'.producer ≠ .completed → flight.result = none) :
    Inv (s.setFlight f flight') := by
  have hlookup : ∀ g, (s.setFlight f flight').flights.lookup g = if g = f then some flight' else s.flights.lookup g :=
    fun g => lookup_insert s.flights f g flight'
  have hkeep : ∀ g x, s.flights.lookup g = some x → ∃ x', (s.setFlight f flight').flights.lookup g = some x' ∧
      x'.project = x.project ∧ x'.abandoned = x.abandoned ∧ x'.retired = x.retired ∧ x'.result = x.result := by
    intro g x hx
    rw [hlookup]
    split
    · rename_i heq
      subst heq
      rw [hf] at hx
      cases hx
      exact ⟨flight', rfl, hlike.project, hlike.abandoned, hlike.retired, hlike.result⟩
    · exact ⟨x, hx, rfl, rfl, rfl, rfl⟩
  have hretired : (s.setFlight f flight').retiredFlights = s.retiredFlights := by
    have := retiredFlights_setFlight s f flight'
    have hsame : flight'.isRetired = flight.isRetired := by
      rw [Flight.isRetired, hlike.result, hlike.retired]
      rfl
    rw [hf, Option.map_some, Option.getD_some, hsame] at this
    omega
  refine ⟨h.bytes, h.payload, h.retired.trans hretired.symm, ?_, ?_, ?_⟩
  · intro g x hx
    rw [hlookup] at hx
    split at hx
    · rename_i heq
      subst heq
      cases hx
      have ok := h.flights g flight hf
      refine ⟨ok.known, hlike.waiters.trans ok.waiters, fun hne => hlike.result.trans (hrunning hne), ?_, ?_, ?_, ?_, ?_⟩
      · intro hne
        rw [hlike.retired]
        exact ok.finished (hlike.result ▸ hne)
      · intro hresult hretired
        rw [hlike.project]
        exact ok.registered (hlike.result ▸ hresult) (hlike.retired ▸ hretired)
      · intro habandoned
        rw [hlike.waiters]
        exact ok.left (hlike.abandoned ▸ habandoned)
      · intro habandoned hresult
        rw [hlike.retired]
        exact ok.abandoned (hlike.abandoned ▸ habandoned) (hlike.result ▸ hresult)
      · intro hreason
        rw [hlike.abandoned]
        exact (hlike.cancelled hreason).elim ok.cancelled id
    · have ok := h.flights g x hx
      exact ⟨ok.known, ok.waiters, ok.running, ok.finished, ok.registered, ok.left, ok.abandoned, ok.cancelled⟩
  · intro project g hg
    obtain ⟨x, hx, hjoin⟩ := h.entries project g hg
    obtain ⟨x', hx', h₁, h₂, h₃, h₄⟩ := hkeep g x hx
    exact ⟨x', hx', h₁.trans hjoin.project, h₂.trans hjoin.abandoned, h₃.trans hjoin.retired, h₄.trans hjoin.result⟩
  · intro i call hcall
    have ok := h.calls i call hcall
    constructor
    · intro g hg
      obtain ⟨x, hx, hproject⟩ := ok.guarded g hg
      obtain ⟨x', hx', h₁, -⟩ := hkeep g x hx
      exact ⟨x', hx', h₁.trans hproject⟩
    · intro g reply hpc
      obtain ⟨x, hx, habandoned⟩ := ok.cancelling g reply hpc
      obtain ⟨x', hx', -, h₂, -⟩ := hkeep g x hx
      exact ⟨x', hx', h₂.trans habandoned⟩

end Quiet

section Slots

/-- The cache changes, but no entry's flight. -/
theorem Inv.setCache (h : Inv s) {cache : CacheState ρ} (hbytes : cache.bytes = cache.readyBytes)
    (hpayload : cache.bytes ≤ MAX_PAYLOAD) (hretired : cache.retired = s.cache.retired)
    (hsequence : s.cache.sequence ≤ cache.sequence) (hflights : ∀ project, cache.flightOf project = s.cache.flightOf project) :
    Inv { s with cache := cache } where
  bytes := hbytes
  payload := hpayload
  retired := hretired.trans h.retired
  flights f flight hf := by
    have ok := h.flights f flight hf
    refine ⟨ok.known.trans hsequence, ok.waiters, ok.running, ok.finished, fun hresult hnot => ?_, ok.left, ok.abandoned,
      ok.cancelled⟩
    exact (hflights flight.project).trans (ok.registered hresult hnot)
  entries project f hf := h.entries project f ((hflights project).symm.trans hf)
  calls i call hcall := ⟨(h.calls i call hcall).guarded, (h.calls i call hcall).cancelling⟩

theorem readyBytes_insert (state : CacheState ρ) (project : PathBuf) (entry : ProjectEntry ρ) :
    Table.total (fun _ entry => entry.readyBytes) (state.projects.insert project entry) +
        ((state.projects.lookup project).map ProjectEntry.readyBytes).getD 0 =
      state.readyBytes + entry.readyBytes :=
  Table.total_insert (fun _ (entry : ProjectEntry ρ) => entry.readyBytes) state.projects project entry

theorem readyBytes_erase (state : CacheState ρ) (project : PathBuf) :
    Table.total (fun _ entry => entry.readyBytes) (state.projects.erase project) +
        ((state.projects.lookup project).map ProjectEntry.readyBytes).getD 0 =
      state.readyBytes :=
  Table.total_erase (fun _ (entry : ProjectEntry ρ) => entry.readyBytes) state.projects project

theorem lookup_leastTouched {state : CacheState ρ} {p : PathBuf × ProjectEntry ρ → Bool} {path : PathBuf}
    {entry : ProjectEntry ρ} (h : leastTouched (state.projects.rows.filter p) = some (path, entry)) :
    state.projects.lookup path = some entry ∧ p (path, entry) = true := by
  obtain ⟨hmem, hp⟩ := List.mem_filter.mp (List.argmin_mem h)
  exact ⟨Table.mem_rows.mp hmem, hp⟩

theorem flightOf_insert (state : CacheState ρ) (project project' : PathBuf) (entry : ProjectEntry ρ) :
    CacheState.flightOf { state with projects := state.projects.insert project entry } project' =
      if project' = project then entry.flight else state.flightOf project' := by
  rw [CacheState.flightOf, lookup_insert]
  split <;> rfl

/-- What `slot` does to the accounts. -/
structure Roomy (state state' : CacheState ρ) : Prop where
  bytes : state'.bytes = state'.readyBytes
  payload : state'.bytes ≤ state.bytes
  retired : state'.retired = state.retired
  sequence : state.sequence ≤ state'.sequence
  flights : ∀ project, state'.flightOf project = state.flightOf project

theorem makeRoom_spec (state : CacheState ρ) (hbytes : state.bytes = state.readyBytes) (strongCount : Nat → Nat) :
    ∃ room, state.makeRoom strongCount = some room ∧ ∀ state', room = some state' → Roomy state state' ∧
      ∀ project, state.projects.lookup project = none → state'.projects.lookup project = none := by
  have hself : Roomy state state := ⟨hbytes, Nat.le_refl _, rfl, Nat.le_refl _, fun _ => rfl⟩
  unfold CacheState.makeRoom
  split
  · split
    · exact ⟨none, rfl, fun state' h => nomatch h⟩
    · rename_i path entry hvictim
      obtain ⟨hentry, hcond⟩ := lookup_leastTouched hvictim
      have hnone : entry.flight = none := by
        rw [Bool.and_eq_true] at hcond
        exact Option.isNone_iff_eq_none.mp hcond.1
      have herase := readyBytes_erase state path
      rw [hentry, Option.map_some, Option.getD_some] at herase
      have hle : entry.readyBytes ≤ state.bytes := by omega
      rw [usizeSub_eq hle]
      refine ⟨_, rfl, ?_⟩
      rintro state' heq
      cases heq
      refine ⟨⟨?_, Nat.sub_le _ _, rfl, Nat.le_refl _, fun project => ?_⟩, fun project hproject => ?_⟩
      · change state.bytes - entry.readyBytes = Table.total (fun _ entry => entry.readyBytes) (state.projects.erase path)
        omega
      · rw [CacheState.flightOf, lookup_erase]
        split
        · rename_i heq
          rw [CacheState.flightOf, heq, hentry]
          exact hnone.symm
        · rfl
      · rw [lookup_erase]
        split
        · rfl
        · exact hproject
  · refine ⟨some state, rfl, ?_⟩
    rintro state' heq
    cases heq
    exact ⟨hself, fun _ h => h⟩

theorem slot_spec {state : CacheState ρ} (hbytes : state.bytes = state.readyBytes) (strongCount : Nat → Nat)
    (project : PathBuf) : ∃ state' slot, state.slot strongCount project = some (state', slot) ∧ Roomy state state' := by
  unfold CacheState.slot
  simp only
  split
  · rename_i entry hentry
    refine ⟨_, _, rfl, ?_, Nat.le_refl _, rfl, Nat.le_succ _, fun project' => ?_⟩
    · have := readyBytes_insert state project { entry with touched := state.sequence + 1 }
      rw [hentry, Option.map_some, Option.getD_some] at this
      change state.bytes = Table.total (fun _ entry => entry.readyBytes)
        (state.projects.insert project { entry with touched := state.sequence + 1 })
      have hsame : ({ entry with touched := state.sequence + 1 } : ProjectEntry ρ).readyBytes = entry.readyBytes := rfl
      omega
    · refine (flightOf_insert state project project' _).trans ?_
      split
      · rename_i heq
        rw [CacheState.flightOf, heq, hentry]
        rfl
      · rfl
  · rename_i hnone
    obtain ⟨room, hroom, hspec⟩ := makeRoom_spec { state with sequence := state.sequence + 1 } hbytes strongCount
    rw [hroom]
    cases room with
    | none => exact ⟨_, _, rfl, hbytes, Nat.le_refl _, rfl, Nat.le_succ _, fun _ => rfl⟩
    | some state₁ =>
      obtain ⟨hroomy, hlookup⟩ := hspec state₁ rfl
      refine ⟨_, _, rfl, ?_, hroomy.payload, hroomy.retired, (Nat.le_succ _).trans hroomy.sequence, fun project' => ?_⟩
      · have := readyBytes_insert state₁ project { slot := state.sequence + 1, touched := state.sequence + 1 }
        rw [hlookup project hnone, Option.map_none, Option.getD_none] at this
        exact hroomy.bytes.trans this.symm
      · refine (flightOf_insert state₁ project project' _).trans ?_
        split
        · rename_i heq
          rw [CacheState.flightOf, heq, hnone]
          rfl
        · exact hroomy.flights project'

theorem Inv.slotThen (h : Inv s) {i : Nat} {call : Call ρ} (project : PathBuf) (next : Nat → Pc ρ)
    (hcall : s.calls.lookup i = some call) (hold : ∀ f, call.pc.guards f = 0) (hnew : ∀ slot f, (next slot).guards f = 0)
    (hnext : ∀ slot f reply, next slot ≠ .cancelling f reply) :
    ∃ s', s.slotThen i project next = .next s' ∧ Inv s' := by
  obtain ⟨cache, slot, hslot, hroomy⟩ := slot_spec h.bytes s.strongCount project
  have hcache : Inv { s with cache := cache } :=
    h.setCache hroomy.bytes (hroomy.payload.trans h.payload) hroomy.retired hroomy.sequence hroomy.flights
  unfold Sys.slotThen
  rw [hslot]
  cases slot with
  | none =>
    refine ⟨_, rfl, hcache.setPc (fun f => ?_) ⟨fun f hf => absurd rfl hf, fun f reply hpc => nomatch hpc⟩⟩
    rw [hcall]
    exact (hold f).symm
  | some slot =>
    refine ⟨_, rfl, hcache.setPc (fun f => ?_) ⟨fun f hf => absurd (hnew slot f) hf, fun f reply hpc => ?_⟩⟩
    · rw [hcall]
      exact (hnew slot f).trans (hold f).symm
    · exact absurd hpc (hnext slot f reply)

end Slots

section Flights

/-- A call takes or leaves a guard of a flight. -/
theorem Inv.reguard (h : Inv s) {f : Nat} {flight : Flight α ρ} (hf : s.flights.lookup f = some flight) {i : Nat}
    {pc : Pc ρ} {n : Nat}
    (hothers : ∀ g, g ≠ f → pc.guards g = 0 ∧ ((s.calls.lookup i).map fun call => call.pc.guards g).getD 0 = 0)
    (hcount : n + ((s.calls.lookup i).map fun call => call.pc.guards f).getD 0 = flight.waiters + pc.guards f)
    (hleft : flight.abandoned = true → n = 0) (hpc : ∀ g reply, pc ≠ .cancelling g reply) :
    Inv ((s.setFlight f { flight with waiters := n }).setPc i flight.project pc) := by
  have ok := h.flights f flight hf
  have hlookup : ∀ g, ((s.setFlight f { flight with waiters := n }).setPc i flight.project pc).flights.lookup g =
      if g = f then some { flight with waiters := n } else s.flights.lookup g :=
    fun g => lookup_insert s.flights f g _
  have hguards : ∀ g, ((s.setFlight f { flight with waiters := n }).setPc i flight.project pc).guards g +
      ((s.calls.lookup i).map fun call => call.pc.guards g).getD 0 = s.guards g + pc.guards g :=
    fun g => guards_setPc (s.setFlight f { flight with waiters := n }) i flight.project pc g
  have hkeep : ∀ g x, s.flights.lookup g = some x →
      ∃ x', ((s.setFlight f { flight with waiters := n }).setPc i flight.project pc).flights.lookup g = some x' ∧
        x'.project = x.project ∧ x'.abandoned = x.abandoned ∧ x'.retired = x.retired ∧ x'.result = x.result := by
    intro g x hx
    rw [hlookup]
    split
    · rename_i heq
      subst heq
      rw [hf] at hx
      cases hx
      exact ⟨_, rfl, rfl, rfl, rfl, rfl⟩
    · exact ⟨x, hx, rfl, rfl, rfl, rfl⟩
  refine ⟨h.bytes, h.payload, ?_, ?_, ?_, ?_⟩
  · have := retiredFlights_setFlight s f { flight with waiters := n }
    rw [hf, Option.map_some, Option.getD_some] at this
    have hsame : ({ flight with waiters := n } : Flight α ρ).isRetired = flight.isRetired := rfl
    rw [hsame] at this
    exact h.retired.trans (Nat.add_right_cancel this).symm
  · intro g x hx
    have hg := hguards g
    rw [hlookup] at hx
    split at hx
    · rename_i heq
      subst heq
      cases hx
      have hwaiters := ok.waiters
      exact ⟨ok.known, by change n = _; omega, ok.running, ok.finished, ok.registered, hleft, ok.abandoned, ok.cancelled⟩
    · rename_i hne
      have ok := h.flights g x hx
      have hwaiters := ok.waiters
      obtain ⟨hnew, hold⟩ := hothers g hne
      exact ⟨ok.known, by omega, ok.running, ok.finished, ok.registered, ok.left, ok.abandoned, ok.cancelled⟩
  · intro project g hg
    obtain ⟨x, hx, hjoin⟩ := h.entries project g hg
    obtain ⟨x', hx', h₁, h₂, h₃, h₄⟩ := hkeep g x hx
    exact ⟨x', hx', h₁.trans hjoin.project, h₂.trans hjoin.abandoned, h₃.trans hjoin.retired, h₄.trans hjoin.result⟩
  · intro j call hcall
    rw [Sys.setPc, lookup_insert] at hcall
    split at hcall
    · cases hcall
      refine ⟨fun g hg => ?_, fun g reply heq => absurd heq (hpc g reply)⟩
      by_cases heq : g = f
      · subst heq
        exact ⟨_, (hlookup g).trans (if_pos rfl), rfl⟩
      · exact absurd (hothers g heq).1 hg
    · have ok := h.calls j call hcall
      constructor
      · intro g hg
        obtain ⟨x, hx, hproject⟩ := ok.guarded g hg
        obtain ⟨x', hx', h₁, -⟩ := hkeep g x hx
        exact ⟨x', hx', h₁.trans hproject⟩
      · intro g reply heq
        obtain ⟨x, hx, habandoned⟩ := ok.cancelling g reply heq
        obtain ⟨x', hx', -, h₂, -⟩ := hkeep g x hx
        exact ⟨x', hx', h₂.trans habandoned⟩

/-- A flight that leaves its entry: it is retired or completed. -/
theorem Inv.settle (h : Inv s) {f : Nat} {flight : Flight α ρ} (hf : s.flights.lookup f = some flight)
    (flight' : Flight α ρ) (cache : CacheState ρ) (calls : Table Nat (Call ρ)) (hproject : flight'.project = flight.project)
    (hbytes : cache.bytes = cache.readyBytes) (hpayload : cache.bytes ≤ MAX_PAYLOAD)
    (hretired : cache.retired + flight.isRetired.toNat = s.cache.retired + flight'.isRetired.toNat)
    (hsequence : s.cache.sequence ≤ cache.sequence)
    (hflights : ∀ project, cache.flightOf project =
      if s.cache.flightOf project = some f then none else s.cache.flightOf project)
    (hguards : ∀ g, g ≠ f → Table.total (fun _ call => Pc.guards g call.pc) calls = s.guards g)
    (hwaiters : flight'.waiters = Table.total (fun _ call => Pc.guards f call.pc) calls)
    (hrunning : flight'.producer ≠ .completed → flight'.result = none)
    (hfinished : flight'.result ≠ none → flight'.retired = false)
    (hout : flight'.result = none → flight'.retired = true)
    (hleft : flight'.abandoned = true → flight'.waiters = 0)
    (hcancelled : flight'.reason = some .noConsumers → flight'.abandoned = true)
    (habandoned : flight.abandoned = true → flight'.abandoned = true)
    (hcalls : ∀ j call, calls.lookup j = some call →
      s.calls.lookup j = some call ∨ (∀ g, call.pc.guards g = 0) ∧
        ∀ g reply, call.pc = .cancelling g reply → g = f ∧ flight'.abandoned = true) :
    Inv { s with cache := cache, flights := s.flights.insert f flight', calls := calls } := by
  have hlookup : ∀ g, (s.flights.insert f flight').lookup g = if g = f then some flight' else s.flights.lookup g :=
    fun g => lookup_insert s.flights f g flight'
  refine ⟨hbytes, hpayload, ?_, ?_, ?_, ?_⟩
  · have := retiredFlights_setFlight s f flight'
    rw [hf, Option.map_some, Option.getD_some] at this
    have hcount := h.retired
    change cache.retired = (s.setFlight f flight').retiredFlights
    omega
  · intro g x hx
    rw [hlookup] at hx
    split at hx
    · rename_i heq
      subst heq
      cases hx
      have ok := h.flights g flight hf
      refine ⟨ok.known.trans hsequence, hwaiters, hrunning, hfinished, fun hresult hnot => ?_, hleft,
        fun _ => hout, hcancelled⟩
      rw [hout hresult] at hnot
      cases hnot
    · rename_i hne
      have ok := h.flights g x hx
      refine ⟨ok.known.trans hsequence, ok.waiters.trans (hguards g hne).symm, ok.running, ok.finished,
        fun hresult hnot => ?_, ok.left, ok.abandoned, ok.cancelled⟩
      have hreg := ok.registered hresult hnot
      have hother : s.cache.flightOf x.project ≠ some f := by
        rw [hreg]
        exact fun heq => hne (Option.some.inj heq)
      rw [hflights, if_neg hother]
      exact hreg
  · intro project g hg
    change cache.flightOf project = some g at hg
    rw [hflights] at hg
    split at hg
    · cases hg
    · rename_i hother
      obtain ⟨x, hx, hjoin⟩ := h.entries project g hg
      have hne : g ≠ f := by
        rintro rfl
        exact hother hg
      exact ⟨x, (hlookup g).trans ((if_neg hne).trans hx), hjoin⟩
  · intro j call hcall
    rcases hcalls j call hcall with hold | ⟨hzero, hcancel⟩
    · have ok := h.calls j call hold
      constructor
      · intro g hg
        obtain ⟨x, hx, hxp⟩ := ok.guarded g hg
        by_cases heq : g = f
        · subst heq
          rw [hf] at hx
          cases hx
          exact ⟨flight', (hlookup g).trans (if_pos rfl), hproject.trans hxp⟩
        · exact ⟨x, (hlookup g).trans ((if_neg heq).trans hx), hxp⟩
      · intro g reply heq
        obtain ⟨x, hx, hxa⟩ := ok.cancelling g reply heq
        by_cases heq : g = f
        · subst heq
          rw [hf] at hx
          cases hx
          exact ⟨flight', (hlookup g).trans (if_pos rfl), habandoned hxa⟩
        · exact ⟨x, (hlookup g).trans ((if_neg heq).trans hx), hxa⟩
    · refine ⟨fun g hg => absurd (hzero g) hg, fun g reply heq => ?_⟩
      obtain ⟨rfl, hxa⟩ := hcancel g reply heq
      exact ⟨flight', (hlookup g).trans (if_pos rfl), hxa⟩

/-- A new flight in an entry that holds none. -/
theorem Inv.launch (h : Inv s) {i f : Nat} {project : PathBuf} (slot : Nat) (generation : Generation)
    (entry : ProjectEntry ρ) (hfresh : s.cache.sequence < f) (hentry : s.cache.projects.lookup project = some entry)
    (hnone : entry.flight = none) (hcall : ∀ g, ((s.calls.lookup i).map fun call => call.pc.guards g).getD 0 = 0) :
    Inv { s with
      cache := { s.cache with projects := s.cache.projects.insert project { entry with flight := some f }, sequence := f }
      flights := s.flights.insert f { project := project, slot := slot, generation := generation }
      calls := s.calls.insert i ⟨project, .waiting f none⟩ } := by
  have hnew : s.flights.lookup f = none := by
    cases hf : s.flights.lookup f with
    | none => rfl
    | some flight => exact absurd (h.flights f flight hf).known (Nat.not_le.mpr hfresh)
  have hlookup : ∀ g, (s.flights.insert f ({ project := project, slot := slot, generation := generation } : Flight α ρ)).lookup g =
      if g = f then some { project := project, slot := slot, generation := generation } else s.flights.lookup g :=
    fun g => lookup_insert s.flights f g _
  have hguards : ∀ g, Table.total (fun _ call => Pc.guards g call.pc) (s.calls.insert i ⟨project, .waiting f none⟩) =
      s.guards g + Pc.guards g (.waiting f none : Pc ρ) := by
    intro g
    have := guards_setPc s i project (.waiting f none) g
    rw [hcall g] at this
    exact this
  have hzero : s.guards f = 0 := by
    refine Table.total_eq_zero fun j call hj => ?_
    by_contra hne
    obtain ⟨x, hx, -⟩ := (h.calls j call hj).guarded f hne
    rw [hnew] at hx
    cases hx
  have hflightOf : ∀ project', CacheState.flightOf { s.cache with
      projects := s.cache.projects.insert project { entry with flight := some f }, sequence := f } project' =
      if project' = project then some f else s.cache.flightOf project' :=
    fun project' => flightOf_insert s.cache project project' _
  have hbefore : s.cache.flightOf project = none := by
    rw [CacheState.flightOf, hentry]
    exact hnone
  refine ⟨?_, h.payload, ?_, ?_, ?_, ?_⟩
  · have := readyBytes_insert s.cache project { entry with flight := some f }
    rw [hentry, Option.map_some, Option.getD_some] at this
    have hsame : ({ entry with flight := some f } : ProjectEntry ρ).readyBytes = entry.readyBytes := rfl
    rw [hsame] at this
    exact h.bytes.trans (Nat.add_right_cancel this).symm
  · have := retiredFlights_setFlight s f { project := project, slot := slot, generation := generation }
    rw [hnew, Option.map_none, Option.getD_none] at this
    exact h.retired.trans this.symm
  · intro g x hx
    change (s.flights.insert f _).lookup g = some x at hx
    rw [hlookup] at hx
    split at hx
    · rename_i heq
      subst heq
      cases hx
      refine ⟨Nat.le_refl _, ?_, fun _ => rfl, fun hne => absurd rfl hne, fun _ _ => ?_, fun habs => ?_, fun habs => ?_,
        fun habs => ?_⟩
      · refine Eq.trans ?_ (hguards g).symm
        rw [hzero]
        simp [Pc.guards]
      · exact (hflightOf project).trans (if_pos rfl)
      all_goals cases habs
    · rename_i hne
      have ok := h.flights g x hx
      refine ⟨(ok.known.trans (Nat.le_of_lt hfresh)), ?_, ok.running, ok.finished, fun hresult hnot => ?_, ok.left,
        ok.abandoned, ok.cancelled⟩
      · refine Eq.trans ?_ (hguards g).symm
        rw [ok.waiters]
        simp [Pc.guards, Ne.symm hne]
      · have hreg := ok.registered hresult hnot
        refine (hflightOf x.project).trans ?_
        rw [if_neg, hreg]
        intro heq
        rw [heq, hbefore] at hreg
        cases hreg
  · intro project' g hg
    rw [hflightOf] at hg
    split at hg
    · rename_i heq
      cases hg
      exact ⟨_, (hlookup f).trans (if_pos rfl), heq.symm, rfl, rfl, rfl⟩
    · obtain ⟨x, hx, hjoin⟩ := h.entries project' g hg
      have hne : g ≠ f := by
        rintro rfl
        rw [hnew] at hx
        cases hx
      exact ⟨x, (hlookup g).trans ((if_neg hne).trans hx), hjoin⟩
  · intro j call hj
    change (s.calls.insert i _).lookup j = some call at hj
    have hkeep : ∀ g x, s.flights.lookup g = some x → g ≠ f := by
      rintro g x hx rfl
      rw [hnew] at hx
      cases hx
    rw [lookup_insert] at hj
    split at hj
    · cases hj
      refine ⟨fun g hg => ?_, fun g reply heq => nomatch heq⟩
      have heq : g = f := by
        by_contra hne
        simp [Pc.guards, Ne.symm hne] at hg
      subst heq
      exact ⟨_, (hlookup g).trans (if_pos rfl), rfl⟩
    · have ok := h.calls j call hj
      constructor
      · intro g hg
        obtain ⟨x, hx, hxp⟩ := ok.guarded g hg
        exact ⟨x, (hlookup g).trans ((if_neg (hkeep g x hx)).trans hx), hxp⟩
      · intro g reply heq
        obtain ⟨x, hx, hxa⟩ := ok.cancelling g reply heq
        exact ⟨x, (hlookup g).trans ((if_neg (hkeep g x hx)).trans hx), hxa⟩

/-- An entry's flight is a flight of that project. -/
theorem Inv.project_of_flightOf (h : Inv s) {f : Nat} {flight : Flight α ρ} (hf : s.flights.lookup f = some flight)
    {project : PathBuf} (hproject : s.cache.flightOf project = some f) : project = flight.project := by
  obtain ⟨x, hx, hjoin⟩ := h.entries project f hproject
  rw [hf] at hx
  cases hx
  exact hjoin.project.symm

theorem clear_flightOf (state : CacheState ρ) (project : PathBuf) (f : Nat) (project' : PathBuf) :
    (state.clear project f).flightOf project' =
      if project' = project ∧ state.flightOf project' = some f then none else state.flightOf project' := by
  unfold CacheState.clear
  split
  · rename_i hnone
    rw [if_neg]
    rintro ⟨rfl, hflight⟩
    rw [CacheState.flightOf, hnone] at hflight
    cases hflight
  · rename_i entry hentry
    have hof : state.flightOf project = entry.flight := by rw [CacheState.flightOf, hentry]; rfl
    split
    · rename_i hflight
      rw [flightOf_insert]
      by_cases heq : project' = project
      · rw [if_pos heq, if_pos ⟨heq, by rw [heq, hof, hflight]⟩]
      · rw [if_neg heq, if_neg fun hand => heq hand.1]
    · rename_i hflight
      rw [if_neg]
      rintro ⟨rfl, hsome⟩
      exact hflight (hof.symm.trans hsome)

theorem clear_bytes (state : CacheState ρ) (project : PathBuf) (f : Nat) :
    (state.clear project f).bytes = state.bytes ∧ (state.clear project f).retired = state.retired ∧
      (state.clear project f).sequence = state.sequence ∧ (state.clear project f).readyBytes = state.readyBytes := by
  unfold CacheState.clear
  split
  · exact ⟨rfl, rfl, rfl, rfl⟩
  · rename_i entry hentry
    split
    · refine ⟨rfl, rfl, rfl, ?_⟩
      have := readyBytes_insert state project { entry with flight := none }
      rw [hentry, Option.map_some, Option.getD_some] at this
      have hsame : ({ entry with flight := none } : ProjectEntry ρ).readyBytes = entry.readyBytes := rfl
      rw [hsame] at this
      exact Nat.add_right_cancel this
    · exact ⟨rfl, rfl, rfl, rfl⟩

/-- The flight that a new one replaces is taken out of the entry and retired. -/
theorem Inv.replaced (h : Inv s) {f : Nat} {flight : Flight α ρ} {project : PathBuf} {entry : ProjectEntry ρ}
    (hentry : s.cache.projects.lookup project = some entry) (hflight : entry.flight = some f)
    (hf : s.flights.lookup f = some flight) :
    Inv { s with
      cache := { s.cache with
        projects := s.cache.projects.insert project { entry with flight := none }, retired := s.cache.retired + 1 }
      flights := s.flights.insert f { flight with retired := true }
      calls := s.calls } := by
  have hof : s.cache.flightOf project = some f := by
    rw [CacheState.flightOf, hentry]
    exact hflight
  obtain ⟨x, hx, hjoin⟩ := h.entries project f hof
  rw [hf] at hx
  cases hx
  have ok := h.flights f flight hf
  refine h.settle hf _ _ _ rfl ?_ h.payload ?_ (Nat.le_refl _) ?_ (fun _ _ => rfl) ok.waiters (fun _ => hjoin.result)
    (fun hne => absurd hjoin.result hne) (fun _ => rfl) ok.left ok.cancelled id (fun j call hcall => .inl hcall)
  · have := readyBytes_insert s.cache project { entry with flight := none }
    rw [hentry, Option.map_some, Option.getD_some] at this
    have hsame : ({ entry with flight := none } : ProjectEntry ρ).readyBytes = entry.readyBytes := rfl
    rw [hsame] at this
    exact h.bytes.trans (Nat.add_right_cancel this).symm
  · have hbefore : flight.isRetired = false := by rw [Flight.isRetired, hjoin.retired, Bool.and_false]
    have hafter : ({ flight with retired := true } : Flight α ρ).isRetired = true := by
      rw [Flight.isRetired, hjoin.result]
      rfl
    rw [hbefore, hafter]
    rfl
  · intro project'
    refine (flightOf_insert s.cache project project' _).trans ?_
    by_cases heq : project' = project
    · rw [if_pos heq, heq, if_pos hof]
    · rw [if_neg heq, if_neg]
      intro hsome
      exact heq ((h.project_of_flightOf hf hsome).trans hjoin.project)

theorem Inv.bumped (h : Inv s) : Inv { s with cache := { s.cache with sequence := s.cache.sequence + 1 } } :=
  h.setCache h.bytes h.payload rfl (Nat.le_succ _) fun _ => rfl

theorem Inv.enter (h : Inv s) {i : Nat} {project : PathBuf} {slot : Nat} {generation : Generation}
    (hcall : s.calls.lookup i = some ⟨project, .found slot generation⟩) : Inv (s.enter i project slot generation) := by
  have hold : ∀ f, ((s.calls.lookup i).map fun call => call.pc.guards f).getD 0 = 0 := by
    intro f
    rw [hcall]
    rfl
  have hreturn : ∀ reply, Inv ({ s with cache := { s.cache with sequence := s.cache.sequence + 1 } }.setPc i project
      (.returned reply)) := fun reply =>
    h.bumped.setPc (fun f => (hold f).symm) ⟨fun f hf => absurd rfl hf, fun f reply hpc => nomatch hpc⟩
  unfold Sys.enter
  simp only
  split
  · exact hreturn none
  · rename_i entry hentry
    split
    · exact hreturn _
    · split
      · rename_i f flight hexisting
        obtain ⟨f', hf', hbind⟩ := Option.bind_eq_some_iff.mp hexisting
        obtain ⟨flight', hflight', hif⟩ := Option.bind_eq_some_iff.mp hbind
        split at hif
        · rename_i hjoinable
          cases hif
          have hof : s.cache.flightOf project = some f := by
            rw [CacheState.flightOf, hentry]
            exact hf'
          have hproject := h.project_of_flightOf hflight' hof
          subst hproject
          refine h.bumped.reguard (i := i) hflight' (fun g hg => ⟨?_, hold g⟩) ?_ (fun habandoned => ?_) fun g reply hpc => nomatch hpc
          · simp [Pc.guards, Ne.symm hg]
          · rw [hold f]
            simp [Pc.guards]
          · rw [hjoinable.2] at habandoned
            cases habandoned
        · cases hif
      · cases hflight : entry.flight with
        | none =>
          exact h.launch slot generation entry (Nat.lt_succ_self _) hentry hflight hold
        | some f =>
          have hof : s.cache.flightOf project = some f := by
            rw [CacheState.flightOf, hentry]
            exact hflight
          obtain ⟨flight, hf, -⟩ := h.entries project f hof
          have hinner := (h.replaced hentry hflight hf).launch (i := i) slot generation { entry with flight := none }
            (Nat.lt_succ_self s.cache.sequence) ((lookup_insert _ _ _ _).trans (if_pos rfl)) rfl hold
          rw [AList.insert_insert] at hinner
          simp only [Sys.retire, hf, Option.bind_some, Option.map_some]
          exact hinner

end Flights

section Install

/-- The number of ready rankings. -/
def CacheState.readyCount (state : CacheState ρ) : Nat := Table.total (fun _ entry => entry.ready.isSome.toNat) state.projects

theorem readyCount_le (state : CacheState ρ) : state.readyCount ≤ state.projects.keys.length := by
  rw [CacheState.readyCount, Table.total, ← Table.keys_rows, List.length_map]
  induction state.projects.rows with
  | nil => exact Nat.le_refl _
  | cons row rows ih =>
    have hone := Bool.toNat_le row.2.ready.isSome
    rw [List.map_cons, List.sum_cons, List.length_cons]
    omega

/-- What making room for a ranking does to the entries: rankings go, nothing else. -/
structure Evicted (state state' : CacheState ρ) : Prop where
  roomy : Roomy state state'
  kept : ∀ project entry, state.projects.lookup project = some entry →
    ∃ entry', state'.projects.lookup project = some entry' ∧ (entry.ready = none → entry'.ready = none)

theorem evict_spec {bytes : Nat} (hbytes : bytes ≤ MAX_PAYLOAD) : ∀ (fuel : Nat) (state : CacheState ρ),
    state.bytes = state.readyBytes → state.readyCount ≤ fuel →
    ∃ state', state.evict bytes fuel = some state' ∧ Evicted state state' ∧ state'.bytes + bytes ≤ MAX_PAYLOAD := by
  have hself : ∀ {state : CacheState ρ}, state.bytes = state.readyBytes → Evicted state state := fun hstate =>
    ⟨⟨hstate, Nat.le_refl _, rfl, Nat.le_refl _, fun _ => rfl⟩, fun _ entry hentry => ⟨entry, hentry, id⟩⟩
  -- without a ready ranking there are no bytes
  have hempty : ∀ {state : CacheState ρ}, state.bytes = state.readyBytes →
      (∀ project entry, state.projects.lookup project = some entry → entry.ready = none) →
      state.bytes + bytes ≤ MAX_PAYLOAD := by
    intro state hstate hnone
    have hzero : state.readyBytes = 0 := by
      refine Table.total_eq_zero fun project entry hentry => ?_
      rw [ProjectEntry.readyBytes, hnone project entry hentry]
      rfl
    omega
  intro fuel
  induction fuel with
  | zero =>
    intro state hstate hcount
    refine ⟨state, rfl, hself hstate, hempty hstate fun project entry hentry => ?_⟩
    have hle := Table.le_total (f := fun _ (entry : ProjectEntry ρ) => entry.ready.isSome.toNat) hentry
    rw [CacheState.readyCount] at hcount
    cases hready : entry.ready with
    | none => rfl
    | some ready =>
      rw [hready] at hle
      exact absurd (hle.trans hcount) (Nat.not_succ_le_zero 0)
  | succ fuel ih =>
    intro state hstate hcount
    unfold CacheState.evict
    split
    · split
      · rename_i hvictim
        refine ⟨state, rfl, hself hstate, hempty hstate fun project entry hentry => ?_⟩
        have hnil := List.argmin_eq_none.mp hvictim
        by_contra hne
        have hmem : (project, entry) ∈ state.projects.rows.filter fun row => row.2.ready.isSome :=
          List.mem_filter.mpr ⟨Table.mem_rows.mpr hentry, Option.isSome_iff_ne_none.mpr hne⟩
        rw [hnil] at hmem
        cases hmem
      · rename_i path entry hvictim
        obtain ⟨hentry, hsome⟩ := lookup_leastTouched hvictim
        have hinsert := readyBytes_insert state path { entry with ready := none }
        rw [hentry, Option.map_some, Option.getD_some] at hinsert
        have hnothing : ({ entry with ready := none } : ProjectEntry ρ).readyBytes = 0 := rfl
        have hle : entry.readyBytes ≤ state.bytes := by omega
        rw [usizeSub_eq hle]
        have hcount' := Table.total_insert (fun _ (entry : ProjectEntry ρ) => entry.ready.isSome.toNat) state.projects path
          { entry with ready := none }
        rw [hentry, Option.map_some, Option.getD_some, hsome] at hcount'
        obtain ⟨state', hrun, hevicted, hfits⟩ := ih { state with
          projects := state.projects.insert path { entry with ready := none }, bytes := state.bytes - entry.readyBytes }
          (by
            change state.bytes - entry.readyBytes = Table.total (fun _ entry => entry.readyBytes)
              (state.projects.insert path { entry with ready := none })
            omega)
          (by
            change Table.total (fun _ (entry : ProjectEntry ρ) => entry.ready.isSome.toNat)
              (state.projects.insert path { entry with ready := none }) ≤ fuel
            have : true.toNat = 1 := rfl
            have : ({ entry with ready := none } : ProjectEntry ρ).ready.isSome.toNat = 0 := rfl
            rw [CacheState.readyCount] at hcount
            omega)
        refine ⟨state', hrun, ⟨⟨hevicted.roomy.bytes, hevicted.roomy.payload.trans (Nat.sub_le _ _), hevicted.roomy.retired,
          hevicted.roomy.sequence, fun project => ?_⟩, fun project entry' hentry' => ?_⟩, hfits⟩
        · rw [hevicted.roomy.flights]
          refine (flightOf_insert state path project _).trans ?_
          split
          · rename_i heq
            rw [CacheState.flightOf, heq, hentry]
            rfl
          · rfl
        · by_cases heq : project = path
          · subst heq
            obtain ⟨entry'', hlookup, hready⟩ := hevicted.kept project { entry with ready := none }
              ((lookup_insert _ _ _ _).trans (if_pos rfl))
            exact ⟨entry'', hlookup, fun _ => hready rfl⟩
          · exact hevicted.kept project entry' ((lookup_insert _ _ _ _).trans ((if_neg heq).trans hentry'))
    · rename_i hfits
      exact ⟨state, rfl, hself hstate, Nat.not_lt.mp hfits⟩

theorem install_spec {state : CacheState ρ} (hstate : state.bytes = state.readyBytes) (hpayload : state.bytes ≤ MAX_PAYLOAD)
    (project : PathBuf) (result : CachedRanking ρ) {bytes : Nat} (hbytes : bytes ≤ MAX_PAYLOAD) :
    ∃ state', state.install project result bytes = some state' ∧ state'.bytes = state'.readyBytes ∧
      state'.bytes ≤ MAX_PAYLOAD ∧ state'.retired = state.retired ∧ state.sequence ≤ state'.sequence ∧
      ∀ project, state'.flightOf project = state.flightOf project := by
  unfold CacheState.install
  split
  · exact ⟨state, rfl, hstate, hpayload, rfl, Nat.le_refl _, fun _ => rfl⟩
  · rename_i entry hentry
    have hinsert := readyBytes_insert state project { entry with ready := none }
    rw [hentry, Option.map_some, Option.getD_some] at hinsert
    have hnothing : ({ entry with ready := none } : ProjectEntry ρ).readyBytes = 0 := rfl
    have hle : entry.readyBytes ≤ state.bytes := by omega
    have htaken : state.bytes - entry.readyBytes = Table.total (fun _ entry => entry.readyBytes)
        (state.projects.insert project { entry with ready := none }) := by omega
    obtain ⟨state₁, hevict, hevicted, hfits⟩ := evict_spec hbytes _ { state with
      projects := state.projects.insert project { entry with ready := none }, bytes := state.bytes - entry.readyBytes }
      htaken (readyCount_le _)
    obtain ⟨entry₁, hentry₁, hready⟩ := hevicted.kept project { entry with ready := none }
      ((lookup_insert _ _ _ _).trans (if_pos rfl))
    have hbytes₁ := readyBytes_insert state₁ project
      { entry₁ with ready := some ⟨result.ranking, result.generation, bytes⟩ }
    have hzero : entry₁.readyBytes = 0 := by
      rw [ProjectEntry.readyBytes, hready rfl]
      rfl
    rw [hentry₁, Option.map_some, Option.getD_some, hzero] at hbytes₁
    rw [usizeSub_eq hle]
    simp only [Option.bind_eq_bind, Option.bind_some, hevict, hentry₁]
    refine ⟨_, rfl, ?_, hfits, hevicted.roomy.retired, hevicted.roomy.sequence, fun project' => ?_⟩
    · change state₁.bytes + bytes = Table.total (fun _ entry => entry.readyBytes) (state₁.projects.insert project
        { entry₁ with ready := some ⟨result.ranking, result.generation, bytes⟩ })
      have hsame : ({ entry₁ with ready := some ⟨result.ranking, result.generation, bytes⟩ } : ProjectEntry ρ).readyBytes =
          bytes := rfl
      have := hevicted.roomy.bytes
      omega
    · refine (flightOf_insert state₁ project project' _).trans ?_
      have hflights := hevicted.roomy.flights project'
      have hinsert := flightOf_insert state project project' { entry with ready := none }
      split
      · rename_i heq
        subst heq
        rw [CacheState.flightOf, hentry₁, Option.bind_some] at hflights
        rw [if_pos rfl] at hinsert
        rw [CacheState.flightOf, hentry]
        exact hflights.trans hinsert
      · rename_i heq
        rw [if_neg heq] at hinsert
        exact hflights.trans hinsert

theorem publish_spec (lib : Library α ρ) (state : CacheState ρ) (hstate : state.bytes = state.readyBytes)
    (hpayload : state.bytes ≤ MAX_PAYLOAD) (f : Nat) (flight : Flight α ρ) (result : Option (CachedRanking ρ)) :
    ∃ state', state.publish lib f flight result = some state' ∧ state'.bytes = state'.readyBytes ∧
      state'.bytes ≤ MAX_PAYLOAD ∧ state'.retired = state.retired ∧ state.sequence ≤ state'.sequence ∧
      ∀ project, state'.flightOf project = state.flightOf project := by
  cases result with
  | none => exact ⟨state, rfl, hstate, hpayload, rfl, Nat.le_refl _, fun _ => rfl⟩
  | some ranking =>
    unfold CacheState.publish
    simp only
    split
    · rename_i haccepts
      have hbytes : lib.rankingBytes ranking.ranking ≤ MAX_PAYLOAD :=
        of_decide_eq_true (Bool.and_eq_true_iff.mp haccepts).2
      exact install_spec hstate hpayload flight.project ranking hbytes
    · exact ⟨state, rfl, hstate, hpayload, rfl, Nat.le_refl _, fun _ => rfl⟩

end Install

section Steps

theorem isRetired_of_result {flight : Flight α ρ} (h : flight.result = none) : flight.isRetired = flight.retired := by
  rw [Flight.isRetired, h]
  rfl

/-- Taking a flight out of its entry. -/
theorem Inv.flightOf_clear (h : Inv s) {f : Nat} {flight : Flight α ρ} (hf : s.flights.lookup f = some flight)
    {cache : CacheState ρ} (hflights : ∀ project, cache.flightOf project = s.cache.flightOf project) (project : PathBuf) :
    (cache.clear flight.project f).flightOf project =
      if s.cache.flightOf project = some f then none else s.cache.flightOf project := by
  rw [clear_flightOf, hflights]
  by_cases hsome : s.cache.flightOf project = some f
  · rw [if_pos ⟨h.project_of_flightOf hf hsome, hsome⟩, if_pos hsome]
  · rw [if_neg fun hand => hsome hand.2, if_neg hsome]

theorem Inv.retired_pos (h : Inv s) {f : Nat} {flight : Flight α ρ} (hf : s.flights.lookup f = some flight)
    (hresult : flight.result = none) (hretired : flight.retired = true) : 1 ≤ s.cache.retired := by
  have hle := Table.le_total (f := fun _ (flight : Flight α ρ) => flight.isRetired.toNat) hf
  rw [isRetired_of_result hresult, hretired] at hle
  exact h.retired ▸ hle

theorem Inv.complete (h : Inv s) {f : Nat} {flight : Flight α ρ} (hf : s.flights.lookup f = some flight)
    {result : Option (CachedRanking ρ)} (hdone : flight.producer = .done result) :
    ∃ s', s.complete lib f flight result = some s' ∧ Inv s' := by
  have ok := h.flights f flight hf
  have hresult : flight.result = none := ok.running (by rw [hdone]; exact fun heq => nomatch heq)
  -- the counter holds the flight, if it is retired
  obtain ⟨retired, hsub, hcount⟩ : ∃ retired, flight.unretire s.cache.retired = some retired ∧
      retired + flight.isRetired.toNat = s.cache.retired := by
    rw [isRetired_of_result hresult, Flight.unretire]
    cases hretired : flight.retired with
    | false => exact ⟨s.cache.retired, rfl, rfl⟩
    | true =>
      have hpos := h.retired_pos hf hresult hretired
      exact ⟨s.cache.retired - 1, usizeSub_eq hpos, Nat.sub_add_cancel hpos⟩
  obtain ⟨cache, hcache, hbytes, hpayload, hretired, hsequence, hflights⟩ :=
    publish_spec lib { s.cache with retired := retired } h.bytes h.payload f flight result
  obtain ⟨hb, hr, hs, hready⟩ := clear_bytes cache flight.project f
  refine ⟨_, ?_, h.settle hf { flight with retired := false, result := some result, producer := .completed }
    (cache.clear flight.project f) s.calls rfl ?_ ?_ ?_ ?_ (h.flightOf_clear hf hflights)
    (fun _ _ => rfl) ok.waiters (fun hne => absurd rfl hne) (fun _ => rfl) (fun hnone => nomatch hnone) ok.left
    ok.cancelled id fun j call hcall => .inl hcall⟩
  · rw [Sys.complete, hsub, Option.bind_eq_bind, Option.bind_some, hcache]
    rfl
  · rw [hb, hready, hbytes]
  · rw [hb]
    exact hpayload
  · rw [hr, hretired]
    exact hcount
  · rw [hs]
    exact hsequence

theorem Inv.dropGuard (h : Inv s) {i f : Nat} {call : Call ρ} {flight : Flight α ρ} (hcall : s.calls.lookup i = some call)
    (hf : s.flights.lookup f = some flight) (hguard : ∀ g, call.pc.guards g = if f = g then 1 else 0)
    (reply : Option (CachedRanking ρ)) : ∃ s', s.dropGuard i call.project f flight reply = some s' ∧ Inv s' := by
  have ok := h.flights f flight hf
  have hone : call.pc.guards f = 1 := (hguard f).trans (if_pos rfl)
  have hproject : flight.project = call.project := by
    obtain ⟨x, hx, hxp⟩ := (h.calls i call hcall).guarded f (by rw [hone]; exact Nat.one_ne_zero)
    rw [hf] at hx
    cases hx
    exact hxp
  have hpos : 1 ≤ flight.waiters := by
    rw [ok.waiters, ← hone]
    exact Table.le_total (f := fun _ (call : Call ρ) => call.pc.guards f) hcall
  have hother : ∀ g, g ≠ f → ((s.calls.lookup i).map fun call => call.pc.guards g).getD 0 = 0 := by
    intro g hg
    rw [hcall, Option.map_some, Option.getD_some, hguard, if_neg (Ne.symm hg)]
  have hguards : ∀ (pc : Pc ρ) g, (s.setPc i call.project pc).guards g + (if f = g then 1 else 0) = s.guards g + pc.guards g := by
    intro pc g
    have := guards_setPc s i call.project pc g
    rwa [hcall, Option.map_some, Option.getD_some, hguard] at this
  have hnot : flight.abandoned ≠ true := by
    intro habandoned
    have := ok.left habandoned
    omega
  unfold Sys.dropGuard
  rw [usizeSub_eq hpos]
  simp only [Option.bind_eq_bind, Option.bind_some]
  split
  · rename_i habandon
    obtain ⟨hzero, hnone⟩ := habandon
    have hresult := Option.isNone_iff_eq_none.mp hnone
    obtain ⟨hb, hr, hs, hready⟩ := clear_bytes
      { s.cache with retired := if flight.retired then s.cache.retired else s.cache.retired + 1 } call.project f
    refine ⟨_, rfl, h.settle hf { flight with waiters := flight.waiters - 1, abandoned := true, retired := true }
      (CacheState.clear { s.cache with retired := if flight.retired then s.cache.retired else s.cache.retired + 1 }
        call.project f) (s.calls.insert i ⟨call.project, .cancelling f reply⟩) rfl (hb.trans (h.bytes.trans hready.symm))
      (hb ▸ h.payload) ?_ (hs ▸ Nat.le_refl _) ?_ (fun g hg => ?_) ?_ (fun _ => hresult) (fun hne => absurd hresult hne)
      (fun _ => rfl) (fun _ => hzero) (fun _ => rfl) (fun _ => rfl) fun j call' hj => ?_⟩
    · rw [hr, isRetired_of_result hresult]
      have hafter : ({ flight with waiters := flight.waiters - 1, abandoned := true, retired := true } :
          Flight α ρ).isRetired = true := isRetired_of_result hresult
      rw [hafter]
      cases flight.retired <;> rfl
    · rw [← hproject]
      exact h.flightOf_clear hf fun _ => rfl
    · have := hguards (.cancelling f reply) g
      rw [if_neg (Ne.symm hg)] at this
      exact this
    · have := hguards (.cancelling f reply) f
      rw [if_pos rfl] at this
      have hwaiters := ok.waiters
      change flight.waiters - 1 = (s.setPc i call.project (.cancelling f reply)).guards f
      have hnothing : Pc.guards f (.cancelling f reply) = 0 := rfl
      omega
    · rw [lookup_insert] at hj
      split at hj
      · cases hj
        refine .inr ⟨fun g => rfl, fun g reply' heq => ?_⟩
        cases heq
        exact ⟨rfl, rfl⟩
      · exact .inl hj
  · rw [← hproject]
    refine ⟨_, rfl, h.reguard hf (fun g hg => ⟨rfl, hother g hg⟩) ?_ (fun habandoned => absurd habandoned hnot)
      fun g reply' heq => nomatch heq⟩
    rw [hcall, Option.map_some, Option.getD_some, hone]
    exact Nat.sub_add_cancel hpos

/-- A step that keeps the accounts and does not underflow. -/
def Keeps : Outcome (Sys α ρ) → Prop
  | .next s => Inv s
  | .panicked => False
  | .disabled => True

theorem Keeps.of_exists {o : Option (Sys α ρ)} (h : ∃ s', o = some s' ∧ Inv s') : Keeps (orPanic o) := by
  obtain ⟨s', rfl, hs'⟩ := h
  exact hs'

/-- A call without a guard goes on without one. -/
theorem Inv.goOn (h : Inv s) {i : Nat} {call : Call ρ} (hcall : s.calls.lookup i = some call)
    (hold : ∀ f, call.pc.guards f = 0) {pc : Pc ρ} (hnew : ∀ f, pc.guards f = 0)
    (hpc : ∀ f reply, pc ≠ .cancelling f reply) : Inv (s.setPc i call.project pc) := by
  refine h.setPc (fun f => ?_) ⟨fun f hf => absurd (hnew f) hf, fun f reply heq => absurd heq (hpc f reply)⟩
  rw [hcall, Option.map_some, Option.getD_some, hold, hnew]

theorem Inv.stepCall (h : Inv s) {i : Nat} {call : Call ρ} (hcall : s.calls.lookup i = some call) :
    Keeps (s.stepCall lib i call) := by
  have hprobed : ∀ {slot : Nat} {move : ProbeMove α}, Inv (s.probed slot move) := h.congr rfl rfl rfl
  have hrecord : ∀ {slot : Nat} {move : ProbeMove α} {reading : Reading}, Inv ((s.probed slot move).record reading) :=
    h.congr rfl rfl rfl
  obtain ⟨project, pc⟩ := call
  unfold Sys.stepCall
  cases pc with
  | start =>
    obtain ⟨s', hs', hinv⟩ := h.slotThen project .slotted hcall (fun _ => rfl) (fun _ _ => rfl) nofun
    simp only [hs']
    exact hinv
  | slotted slot =>
    obtain ⟨s', hs', hinv⟩ := h.slotThen project (fun probed => .probing slot probed .readConfig) hcall
      (fun _ => rfl) (fun _ _ => rfl) nofun
    simp only [hs']
    exact hinv
  | probing slot probed probe =>
    simp only
    split
    · trivial
    · split
      · exact hprobed.goOn hcall (fun _ => rfl) (fun _ => rfl) nofun
      · exact hprobed.goOn hcall (fun _ => rfl) (fun _ => rfl) nofun
      · exact hrecord.goOn hcall (fun _ => rfl) (fun _ => rfl) nofun
  | detached probed probe =>
    simp only
    split
    · trivial
    · split <;> exact hprobed.goOn hcall (fun _ => rfl) (fun _ => rfl) nofun
  | found slot generation => exact h.enter hcall
  | waiting f slot =>
    simp only
    split
    · trivial
    · rename_i reply hresult
      refine h.setPc (fun g => ?_) ⟨(h.calls i _ hcall).guarded, nofun⟩
      rw [hcall]
      rfl
  | answered f slot reply =>
    simp only
    split
    · trivial
    · rename_i flight hf
      exact .of_exists (h.dropGuard hcall hf (fun g => rfl) reply)
  | cancelling f reply =>
    simp only
    split
    · trivial
    · rename_i flight hf
      obtain ⟨x, hx, habandoned⟩ := (h.calls i _ hcall).cancelling f reply rfl
      rw [hf] at hx
      cases hx
      have hflight : Inv (s.setFlight f { flight with reason := flight.reason.or (some .noConsumers) }) :=
        h.setFlight hf ⟨rfl, rfl, rfl, rfl, rfl, fun _ => .inr habandoned⟩ (h.flights f flight hf).running
      exact hflight.goOn hcall (fun _ => rfl) (fun _ => rfl) nofun
  | returned reply => trivial

theorem Inv.stepDrop (h : Inv s) {i : Nat} {call : Call ρ} (hcall : s.calls.lookup i = some call) :
    Keeps (s.stepDrop i call) := by
  obtain ⟨project, pc⟩ := call
  unfold Sys.stepDrop
  cases pc with
  | start => exact h.goOn hcall (fun _ => rfl) (fun _ => rfl) nofun
  | slotted slot => exact h.goOn hcall (fun _ => rfl) (fun _ => rfl) nofun
  | probing slot probed probe => exact h.goOn hcall (fun _ => rfl) (fun _ => rfl) nofun
  | found slot generation => exact h.goOn hcall (fun _ => rfl) (fun _ => rfl) nofun
  | waiting f slot =>
    simp only
    split
    · trivial
    · rename_i flight hf
      exact .of_exists (h.dropGuard hcall hf (fun g => rfl) none)
  | detached probed probe => trivial
  | answered f slot reply => trivial
  | cancelling f reply => trivial
  | returned reply => trivial

theorem Inv.stepFault (h : Inv s) {i : Nat} {call : Call ρ} (hcall : s.calls.lookup i = some call) :
    Keeps (s.stepFault i call) := by
  have hreleased : ∀ {slot : Nat} {probe : Probe}, Inv (s.releaseSlot slot probe) := h.congr rfl rfl rfl
  obtain ⟨project, pc⟩ := call
  unfold Sys.stepFault
  cases pc with
  | probing slot probed probe => exact hreleased.goOn hcall (fun _ => rfl) (fun _ => rfl) nofun
  | detached probed probe => exact hreleased.goOn hcall (fun _ => rfl) (fun _ => rfl) nofun
  | _ => trivial

/-- A producer that has not completed goes on. -/
theorem Inv.produce (h : Inv s) {f : Nat} {flight : Flight α ρ} (hf : s.flights.lookup f = some flight)
    (hrunning : flight.producer ≠ .completed) (producer : Producer α ρ) :
    Inv (s.setFlight f { flight with producer := producer }) :=
  h.setFlight hf ⟨rfl, rfl, rfl, rfl, rfl, .inl⟩ fun _ => (h.flights f flight hf).running hrunning

theorem Inv.stepProduce (h : Inv s) {f : Nat} {flight : Flight α ρ} (hf : s.flights.lookup f = some flight) :
    Keeps (s.stepProduce lib f flight) := by
  have hprobed : ∀ {slot : Nat} {move : ProbeMove α}, Inv (s.probed slot move) := h.congr rfl rfl rfl
  have hrecord : ∀ {slot : Nat} {move : ProbeMove α} {reading : Reading}, Inv ((s.probed slot move).record reading) :=
    h.congr rfl rfl rfl
  unfold Sys.stepProduce
  cases hproducer : flight.producer with
  | queued => exact h.produce hf (by rw [hproducer]; nofun) _
  | before probe =>
    simp only
    split
    · trivial
    · split
      · exact hprobed.produce hf (by rw [hproducer]; nofun) _
      · exact hprobed.produce hf (by rw [hproducer]; nofun) _
      · exact hrecord.produce hf (by rw [hproducer]; nofun) _
  | openDb before => exact h.produce hf (by rw [hproducer]; nofun) _
  | snapshot before db =>
    simp only
    split
    · trivial
    · exact h.produce hf (by rw [hproducer]; nofun) _
  | rank before db state => exact h.produce hf (by rw [hproducer]; nofun) _
  | after before db ranking probe =>
    simp only
    split
    · trivial
    · split
      · exact hprobed.produce hf (by rw [hproducer]; nofun) _
      · exact hprobed.produce hf (by rw [hproducer]; nofun) _
      · exact hprobed.produce hf (by rw [hproducer]; nofun) _
      · exact hrecord.produce hf (by rw [hproducer]; nofun) _
  | attest before db ranking after => exact h.produce hf (by rw [hproducer]; nofun) _
  | check before ranking after attested => exact h.produce hf (by rw [hproducer]; nofun) _
  | done result => exact .of_exists (h.complete hf hproducer)
  | completed => trivial

theorem Inv.stepFail (h : Inv s) {f : Nat} {flight : Flight α ρ} (hf : s.flights.lookup f = some flight)
    (error : ProbeError) : Keeps (s.stepFail f flight error) := by
  have hreleased : ∀ {slot : Nat} {probe : Probe}, Inv (s.releaseSlot slot probe) := h.congr rfl rfl rfl
  unfold Sys.stepFail
  cases hproducer : flight.producer with
  | before probe => exact hreleased.produce hf (by rw [hproducer]; nofun) _
  | after before db ranking probe => cases error <;> exact hreleased.produce hf (by rw [hproducer]; nofun) _
  | done result => trivial
  | completed => trivial
  | _ => exact h.produce hf (by rw [hproducer]; nofun) _

/-- Every step keeps the accounts. -/
theorem Inv.step (h : Inv s) (a : Act α) : Keeps (step lib s a) := by
  have hcalls : ∀ {i : Nat} {k : Call ρ → Outcome (Sys α ρ)}, (∀ call, s.calls.lookup i = some call → Keeps (k call)) →
      Keeps (s.withCall i k) := by
    intro i k hk
    unfold Sys.withCall
    split
    · trivial
    · exact hk _ ‹_›
  have hflights : ∀ {f : Nat} {k : Flight α ρ → Outcome (Sys α ρ)},
      (∀ flight, s.flights.lookup f = some flight → Keeps (k flight)) → Keeps (s.withFlight f k) := by
    intro f k hk
    unfold Sys.withFlight
    split
    · trivial
    · exact hk _ ‹_›
  cases a with
  | get i project =>
    unfold Overview.step
    simp only
    split
    · rename_i hnone
      refine h.setPc (fun f => ?_) ⟨fun f hf => absurd rfl hf, nofun⟩
      rw [hnone]
      rfl
    · trivial
  | call i => exact hcalls fun call hcall => h.stepCall hcall
  | drop i => exact hcalls fun call hcall => h.stepDrop hcall
  | fault i => exact hcalls fun call hcall => h.stepFault hcall
  | produce f => exact hflights fun flight hf => h.stepProduce hf
  | fail f error => exact hflights fun flight hf => h.stepFail hf error
  | stop f reason =>
    unfold Overview.step
    simp only
    split
    · trivial
    · rename_i hreason
      refine hflights fun flight hf => h.setFlight hf ⟨rfl, rfl, rfl, rfl, rfl, fun hsome => .inl ?_⟩
        (h.flights f flight hf).running
      cases hold : flight.reason with
      | some r =>
        change flight.reason.or (some reason) = _ at hsome
        rw [hold] at hsome
        exact hsome
      | none =>
        change flight.reason.or (some reason) = _ at hsome
        rw [hold] at hsome
        exact absurd (Option.some.inj hsome) hreason
  | commit file state => exact h.congr rfl rfl rfl
  | replace project file => exact h.congr rfl rfl rfl
  | editConfig project config => exact h.congr rfl rfl rfl
  | setRecurrence recurrence => exact h.congr rfl rfl rfl

theorem Reachable.inv (h : Reachable lib s) : Inv s := by
  obtain ⟨s₀, hinit, hsteps⟩ := h
  refine hsteps.invariant (fun s a s' hs hstep => ?_) (Inv.init hinit)
  have hkeeps : Keeps (Overview.step lib s a) := hs.step a
  rwa [hstep] at hkeeps

end Steps

section Abandoned

/-- A flight is abandoned only by its last waiter, and only without a result. -/
def Leaves (s s' : Sys α ρ) : Prop :=
  ∀ f flight', s'.flights.lookup f = some flight' → flight'.abandoned = true →
    ∃ flight, s.flights.lookup f = some flight ∧
      (flight.abandoned = true ∨ flight.waiters = 1 ∧ flight.result = none)

theorem Leaves.of_eq (hflights : s'.flights = s.flights) : Leaves s s' := by
  intro f flight' hf habandoned
  rw [hflights] at hf
  exact ⟨flight', hf, .inl habandoned⟩

/-- Only one flight changes. -/
theorem Leaves.insert {s₀ : Sys α ρ} (h : Leaves s₀ s) {f : Nat} {flight : Flight α ρ} (hflights : s'.flights = s.flights.insert f flight)
    (hf : flight.abandoned = true → ∃ flight, s₀.flights.lookup f = some flight ∧
      (flight.abandoned = true ∨ flight.waiters = 1 ∧ flight.result = none)) : Leaves s₀ s' := by
  intro g flight' hg habandoned
  rw [hflights, lookup_insert] at hg
  split at hg
  · rename_i heq
    cases hg
    rw [heq]
    exact hf habandoned
  · exact h g flight' hg habandoned

theorem Leaves.change {f : Nat} {flight flight' : Flight α ρ} (hf : s.flights.lookup f = some flight)
    (hflights : s'.flights = s.flights.insert f flight') (hsame : flight'.abandoned = flight.abandoned) : Leaves s s' :=
  (Leaves.of_eq rfl : Leaves s s).insert hflights fun habandoned => ⟨flight, hf, .inl (hsame ▸ habandoned)⟩

theorem leaves_retire (previous : Option Nat) : Leaves s (s.retire previous) := by
  unfold Sys.retire
  split
  · exact .of_eq rfl
  · rename_i f flight hbind
    obtain ⟨f', -, hmap⟩ := Option.bind_eq_some_iff.mp hbind
    obtain ⟨flight', hf', heq⟩ := Option.map_eq_some_iff.mp hmap
    cases heq
    exact .change hf' rfl rfl

theorem leaves_enter (i : Nat) (project : PathBuf) (slot : Nat) (generation : Generation) :
    Leaves s (s.enter i project slot generation) := by
  unfold Sys.enter
  simp only
  split
  · exact .of_eq rfl
  · rename_i entry hentry
    split
    · exact .of_eq rfl
    · split
      · rename_i f flight hexisting
        obtain ⟨f', -, hbind⟩ := Option.bind_eq_some_iff.mp hexisting
        obtain ⟨flight', hflight', hif⟩ := Option.bind_eq_some_iff.mp hbind
        split at hif
        · cases hif
          exact .change hflight' rfl rfl
        · cases hif
      · have hretire : Leaves s (Sys.retire { s with cache := { s.cache with sequence := s.cache.sequence + 1 } }
            entry.flight) := leaves_retire entry.flight
        exact hretire.insert rfl fun habandoned => nomatch habandoned

theorem leaves_dropGuard {i f : Nat} {project : PathBuf} {flight : Flight α ρ} {reply : Option (CachedRanking ρ)}
    (hf : s.flights.lookup f = some flight) (h : s.dropGuard i project f flight reply = some s') : Leaves s s' := by
  obtain ⟨waiters, hwaiters, h⟩ := Option.bind_eq_some_iff.mp h
  split at h
  · rename_i habandon
    cases h
    refine (Leaves.of_eq rfl : Leaves s s).insert rfl fun _ => ⟨flight, hf, .inr ⟨?_, ?_⟩⟩
    · unfold usizeSub at hwaiters
      split at hwaiters
      · cases hwaiters
        have := habandon.1
        omega
      · cases hwaiters
    · exact Option.isNone_iff_eq_none.mp habandon.2
  · cases h
    exact .change hf rfl rfl

theorem leaves_complete {f : Nat} {flight : Flight α ρ} {result : Option (CachedRanking ρ)}
    (hf : s.flights.lookup f = some flight) (h : s.complete lib f flight result = some s') : Leaves s s' := by
  obtain ⟨retired, -, h⟩ := Option.bind_eq_some_iff.mp h
  obtain ⟨cache, -, h⟩ := Option.bind_eq_some_iff.mp h
  cases h
  exact .change hf rfl rfl

theorem slotThen_flights {i : Nat} {project : PathBuf} {next : Nat → Pc ρ} (h : s.slotThen i project next = .next s') :
    s'.flights = s.flights := by
  unfold Sys.slotThen at h
  split at h
  · cases h
  · cases h
    rfl
  · cases h
    rfl

theorem orPanic_eq_next {σ : Type} {o : Option σ} {x : σ} (h : orPanic o = .next x) : o = some x := by
  cases o with
  | none => cases h
  | some y =>
    cases h
    rfl

theorem leaves_call {i : Nat} {call : Call ρ} (h : s.stepCall lib i call = .next s') : Leaves s s' := by
  unfold Sys.stepCall at h
  simp only at h
  split at h
  · exact .of_eq (slotThen_flights h)
  · exact .of_eq (slotThen_flights h)
  · split at h
    · cases h
    · split at h <;> cases h <;> exact .of_eq rfl
  · split at h
    · cases h
    · split at h <;> cases h <;> exact .of_eq rfl
  · cases h
    exact leaves_enter _ _ _ _
  · split at h
    · cases h
    · cases h
      exact .of_eq rfl
  · split at h
    · cases h
    · rename_i flight hf
      exact leaves_dropGuard hf (orPanic_eq_next h)
  · split at h
    · cases h
    · rename_i flight hf
      cases h
      exact .change hf rfl rfl
  · cases h

theorem leaves_drop {i : Nat} {call : Call ρ} (h : s.stepDrop i call = .next s') : Leaves s s' := by
  unfold Sys.stepDrop at h
  split at h
  · cases h
    exact .of_eq rfl
  · cases h
    exact .of_eq rfl
  · cases h
    exact .of_eq rfl
  · cases h
    exact .of_eq rfl
  · split at h
    · cases h
    · rename_i flight hf
      exact leaves_dropGuard hf (orPanic_eq_next h)
  · cases h

theorem leaves_produce {f : Nat} {flight : Flight α ρ} (hf : s.flights.lookup f = some flight)
    (h : s.stepProduce lib f flight = .next s') : Leaves s s' := by
  unfold Sys.stepProduce at h
  simp only at h
  split at h
  · cases h
    exact .change hf rfl rfl
  · split at h
    · cases h
    · split at h <;> cases h <;> exact .change hf rfl rfl
  · cases h
    exact .change hf rfl rfl
  · split at h
    · cases h
    · cases h
      exact .change hf rfl rfl
  · cases h
    exact .change hf rfl rfl
  · split at h
    · cases h
    · split at h <;> cases h <;> exact .change hf rfl rfl
  · cases h
    exact .change hf rfl rfl
  · cases h
    exact .change hf rfl rfl
  · exact leaves_complete hf (orPanic_eq_next h)
  · cases h

theorem leaves_fail {f : Nat} {flight : Flight α ρ} {error : ProbeError} (hf : s.flights.lookup f = some flight)
    (h : s.stepFail f flight error = .next s') : Leaves s s' := by
  unfold Sys.stepFail at h
  simp only at h
  split at h
  · cases h
    exact .change hf rfl rfl
  · split at h <;> cases h <;> exact .change hf rfl rfl
  · cases h
  · cases h
  · cases h
    exact .change hf rfl rfl

theorem withCall_eq_next {i : Nat} {k : Call ρ → Outcome (Sys α ρ)} (h : s.withCall i k = .next s') :
    ∃ call, s.calls.lookup i = some call ∧ k call = .next s' := by
  unfold Sys.withCall at h
  split at h
  · cases h
  · exact ⟨_, ‹_›, h⟩

theorem withFlight_eq_next {f : Nat} {k : Flight α ρ → Outcome (Sys α ρ)} (h : s.withFlight f k = .next s') :
    ∃ flight, s.flights.lookup f = some flight ∧ k flight = .next s' := by
  unfold Sys.withFlight at h
  split at h
  · cases h
  · exact ⟨_, ‹_›, h⟩

theorem leaves_step {a : Act α} (h : step lib s a = .next s') : Leaves s s' := by
  cases a with
  | get i project =>
    unfold step at h
    simp only at h
    split at h
    · cases h
      exact .of_eq rfl
    · cases h
  | call i =>
    obtain ⟨call, -, hk⟩ := withCall_eq_next h
    exact leaves_call hk
  | drop i =>
    obtain ⟨call, -, hk⟩ := withCall_eq_next h
    exact leaves_drop hk
  | fault i =>
    obtain ⟨call, -, hk⟩ := withCall_eq_next h
    unfold Sys.stepFault at hk
    split at hk <;> cases hk <;> exact .of_eq rfl
  | produce f =>
    obtain ⟨flight, hf, hk⟩ := withFlight_eq_next h
    exact leaves_produce hf hk
  | fail f error =>
    obtain ⟨flight, hf, hk⟩ := withFlight_eq_next h
    exact leaves_fail hf hk
  | stop f reason =>
    unfold step at h
    simp only at h
    split at h
    · cases h
    · obtain ⟨flight, hf, hk⟩ := withFlight_eq_next h
      cases hk
      exact .change hf rfl rfl
  | commit file state => cases h; exact .of_eq rfl
  | replace project file => cases h; exact .of_eq rfl
  | editConfig project config => cases h; exact .of_eq rfl
  | setRecurrence recurrence => cases h; exact .of_eq rfl

end Abandoned

section Results

/-- No two flights of a project are in use: one of them is retired, or has its result. -/
def OneFlight (s : Sys α ρ) : Prop :=
  ∀ f g flight flight', s.flights.lookup f = some flight → s.flights.lookup g = some flight' →
    flight.project = flight'.project → flight.result = none → flight'.result = none →
    flight.retired = false → flight'.retired = false → f = g

theorem Inv.oneFlight (h : Inv s) : OneFlight s := by
  intro f g flight flight' hf hg hproject hresult hresult' hretired hretired'
  have hreg := (h.flights f flight hf).registered hresult hretired
  have hreg' := (h.flights g flight' hg).registered hresult' hretired'
  rw [hproject, hreg'] at hreg
  exact (Option.some.inj hreg).symm

/-- The accounts of the cache in every reachable state. -/
theorem single_flight_accounts (lib : Library α ρ) (s : Sys α ρ) (h : Reachable lib s) :
    (s.cache.bytes = s.cache.readyBytes ∧ s.cache.bytes ≤ MAX_PAYLOAD) ∧
    s.cache.retired = s.retiredFlights ∧
    (∀ f flight, s.flights.lookup f = some flight → flight.waiters = s.guards f) ∧
    (∀ project f, s.cache.flightOf project = some f → ∃ flight, s.flights.lookup f = some flight ∧
      flight.abandoned = false ∧ flight.retired = false ∧ flight.result = none) ∧
    OneFlight s ∧
    (∀ f flight, s.flights.lookup f = some flight → flight.reason = some .noConsumers → flight.abandoned = true) ∧
    (∀ a s', step lib s a = .next s' → Leaves s s') ∧
    ∀ a, step lib s a ≠ .panicked := by
  have hinv := h.inv
  refine ⟨⟨hinv.bytes, hinv.payload⟩, hinv.retired, fun f flight hf => (hinv.flights f flight hf).waiters, ?_,
    hinv.oneFlight, fun f flight hf => (hinv.flights f flight hf).cancelled, fun a s' hstep => leaves_step hstep, ?_⟩
  · intro project f hf
    obtain ⟨flight, hflight, hjoin⟩ := hinv.entries project f hf
    exact ⟨flight, hflight, hjoin.abandoned, hjoin.retired, hjoin.result⟩
  · intro a hpanic
    have hkeeps : Keeps (step lib s a) := hinv.step a
    rw [hpanic] at hkeeps
    exact hkeeps

/-- A cache in a world with one index file for each number, and a ranking that is the state of the file. -/
def plainLibrary : Library Nat Nat := ⟨fun state _ => state, fun _ => 100, fun _ commits => commits⟩

def plainSys : Sys Nat Nat :=
  { world := { path := fun _ => 0, files := fun file => [file], config := fun _ => none, recurrence := true, epochs := [] } }

theorem plainSys_initial : Initial plainSys := ⟨rfl, fun _ => rfl, rfl, rfl, rfl, rfl, rfl, rfl⟩

/-- A call that registers with a flight; `n` is the number of its steps. -/
def getActs (i n : Nat) : List (Act Nat) := .get i "p" :: List.replicate n (.call i)

/-- The config is edited and edited back while three calls come, one after each edit. -/
def editedBack : List (Act Nat) :=
  getActs 0 14 ++ [.editConfig "p" (some "x")] ++ getActs 1 11 ++ [.editConfig "p" none] ++ getActs 2 11

/-- The first flight and the third run for one generation, neither of them abandoned. -/
theorem generation_flies_twice :
    ∃ s, Reachable plainLibrary s ∧ ∃ f g flight flight', f ≠ g ∧ s.flights.lookup f = some flight ∧
      s.flights.lookup g = some flight' ∧ flight.project = flight'.project ∧ flight.generation = flight'.generation ∧
      flight.result = none ∧ flight'.result = none ∧ flight.abandoned = false ∧ flight'.abandoned = false := by
  obtain ⟨s, hsteps, htest⟩ := steps_of_run (step plainLibrary) plainSys editedBack (fun s =>
    (s.flights.lookup 3).any fun flight => (s.flights.lookup 9).any fun flight' =>
      flight.project == flight'.project && flight.generation == flight'.generation &&
        flight.result.isNone && flight'.result.isNone && !flight.abandoned && !flight'.abandoned) (by decide)
  rw [Option.any_eq_true] at htest
  obtain ⟨flight, hf, htest⟩ := htest
  rw [Option.any_eq_true] at htest
  obtain ⟨flight', hg, htest⟩ := htest
  simp only [Bool.and_eq_true, beq_iff_eq, Option.isNone_iff_eq_none, Bool.not_eq_true'] at htest
  obtain ⟨⟨⟨⟨⟨h₁, h₂⟩, h₃⟩, h₄⟩, h₅⟩, h₆⟩ := htest
  exact ⟨s, ⟨plainSys, plainSys_initial, hsteps⟩, 3, 9, flight, flight', by decide, hf, hg, h₁, h₂, h₃, h₄, h₅, h₆⟩

/-- Of the three calls the first leaves: its flight, replaced before, is abandoned and counted once. -/
theorem single_flight_accounts_edited :
    ∃ s, Reachable plainLibrary s ∧ s.cache.retired = 2 ∧ s.retiredFlights = 2 ∧ OneFlight s ∧
      ∀ a, step plainLibrary s a ≠ .panicked := by
  obtain ⟨s, hsteps, htest⟩ := steps_of_run (step plainLibrary) plainSys (editedBack ++ [.drop 0]) (fun s =>
    s.cache.retired == 2) (by decide)
  have hreach : Reachable plainLibrary s := ⟨plainSys, plainSys_initial, hsteps⟩
  obtain ⟨-, hretired, -, -, hone, -, -, hpanic⟩ := single_flight_accounts plainLibrary s hreach
  have htwo : s.cache.retired = 2 := by simpa using htest
  exact ⟨s, hreach, htwo, hretired ▸ htwo, hone, hpanic⟩

end Results

end Overview
end Mcp
end CodeSage
