import CodeSage.Mcp.Watchers

/-!
# CodeSage.Mcp.WatchersCorrect

What the registry keeps in every run, by one invariant:

* `OneWatcher` and `OwnEntryOnly`, in every run: the entry of a live watcher is there (`Slots`), so a second
  reservation does not go through;
* `HandlesHeld`, in every run in which no call puts nothing back over a live handle.

`putBack` writes what was taken without looking at what is there: of two stops that overlap, the second takes
nothing, and when both time out it drops the handle that the first has put back.
-/

namespace CodeSage
namespace Mcp
namespace Watchers

open Lib

variable {Root Key : Type}

/-- A handle that was taken is that of the thread the entry is for. -/
structure TakenOk (s : State Root Key) (taken : Taken Root) : Prop where
  made : taken.alive < s.calls
  thread : ∀ x, taken.thread = some x → x = taken.alive ∧ s.spawned x = some taken.root

structure EntryOk (s : State Root Key) (root : Root) (entry : WatcherEntry Key) : Prop where
  shutdown : entry.shutdown = entry.alive
  made : entry.alive < s.calls
  thread : ∀ x, entry.thread = some x → x = entry.alive ∧ s.spawned x = some root

def CallOk (s : State Root Key) (c : Nat) : Call Root Key → Prop
  | .ended => True
  | .reserving _ _ => s.spawned c = none
  | .reserveWaiting _ taken => s.spawned c = none ∧ TakenOk s taken
  | .reserveTimedOut _ taken => s.spawned c = none ∧ TakenOk s taken
  | .reserved _ => s.spawned c = none
  | .storing root => s.spawned c = some root
  | .stopWaiting pending => ∀ taken ∈ pending, TakenOk s taken
  | .stopReaping _ alive rest => (alive < s.calls ∧ s.alive alive = false) ∧ ∀ taken ∈ rest, TakenOk s taken
  | .stopTimedOut taken rest => ∀ t ∈ taken :: rest, TakenOk s t

section Defs

variable [DecidableEq Root]

/-- The entry of a root is the one with this flag. -/
def Occupies (registry : Table Root (WatcherEntry Key)) (root : Root) (w : Nat) : Prop :=
  ∃ entry, registry.lookup root = some entry ∧ entry.alive = w

/-- Every live watcher has its entry. -/
def Slots (s : State Root Key) : Prop := ∀ w root, Live s w root → s.detached w = false → Occupies s.registry root w

structure Inv (s : State Root Key) : Prop where
  entries : ∀ root entry, s.registry.lookup root = some entry → EntryOk s root entry
  calls : ∀ c, CallOk s c (s.call c)
  fresh : ∀ c, s.calls ≤ c → s.call c = .ended ∧ s.spawned c = none
  stored : ∀ w, s.stored w = true → s.spawned w ≠ none
  slots : Slots s

end Defs

/-- What a step leaves as it was, or only adds to. -/
structure Later (s s' : State Root Key) : Prop where
  calls : s.calls ≤ s'.calls
  spawned : ∀ x root, s.spawned x = some root → s'.spawned x = some root
  alive : ∀ x, x < s.calls → s.alive x = false → s'.alive x = false

section Keeps

variable {s s' : State Root Key} {c w : Nat} {root : Root}

theorem TakenOk.later {taken : Taken Root} (h : TakenOk s taken) (hl : Later s s') : TakenOk s' taken :=
  ⟨h.made.trans_le hl.calls, fun x hx => ⟨(h.thread x hx).1, hl.spawned x _ (h.thread x hx).2⟩⟩

theorem EntryOk.later {entry : WatcherEntry Key} (h : EntryOk s root entry) (hl : Later s s') : EntryOk s' root entry :=
  ⟨h.shutdown, h.made.trans_le hl.calls, fun x hx => ⟨(h.thread x hx).1, hl.spawned x _ (h.thread x hx).2⟩⟩

theorem EntryOk.taken {entry : WatcherEntry Key} (h : EntryOk s root entry) :
    TakenOk s ⟨root, entry.alive, entry.thread⟩ := ⟨h.made, h.thread⟩

theorem CallOk.later {call : Call Root Key} (h : CallOk s c call) (hl : Later s s')
    (hc : s'.spawned c = s.spawned c) : CallOk s' c call := by
  cases call with
  | ended => trivial
  | reserving root key => exact hc.trans h
  | reserveWaiting key taken => exact ⟨hc.trans h.1, h.2.later hl⟩
  | reserveTimedOut key taken => exact ⟨hc.trans h.1, h.2.later hl⟩
  | reserved root => exact hc.trans h
  | storing root => exact hc.trans h
  | stopWaiting pending => exact fun taken ht => (h taken ht).later hl
  | stopReaping root alive rest =>
    exact ⟨⟨h.1.1.trans_le hl.calls, hl.alive alive h.1.1 h.1.2⟩, fun taken ht => (h.2 taken ht).later hl⟩
  | stopTimedOut taken rest => exact fun t ht => (h t ht).later hl

/-- A call that goes on with what it has left to stop. -/
theorem callOk_stopNext {rest : List (Taken Root)} (h : ∀ taken ∈ rest, TakenOk s taken) :
    CallOk s c (stopNext rest) := by
  unfold stopNext
  split
  · trivial
  · exact h

theorem stopNext_ne_reserved (rest : List (Taken Root)) (root : Root) : stopNext rest ≠ (.reserved root : Call Root Key) := by
  unfold stopNext
  split <;> exact nofun

/-- A section that changes the registry, the call and what is known of flags only. -/
structure Moved (s s' : State Root Key) (c : Nat) (call : Call Root Key) : Prop where
  alive : s'.alive = s.alive
  calls : s'.calls = s.calls
  spawned : s'.spawned = s.spawned
  call : s'.call = (s.setCall c call).call

variable {call : Call Root Key}

theorem Moved.later (hm : Moved s s' c call) : Later s s' :=
  ⟨hm.calls.ge, fun x root hx => by rw [hm.spawned, hx], fun x _ hx => by rw [hm.alive, hx]⟩

theorem Moved.self (hm : Moved s s' c call) : s'.call c = call := by
  rw [hm.call]
  exact Function.update_self _ _ _

theorem Moved.other (hm : Moved s s' c call) {c' : Nat} (hc : c' ≠ c) : s'.call c' = s.call c' := by
  rw [hm.call]
  exact Function.update_of_ne hc _ _

/-- Only a reservation makes a watcher live. -/
theorem Moved.live (hm : Moved s s' c call) (hcall : ∀ root, call ≠ .reserved root) (h : Live s' w root) :
    Live s w root := by
  refine ⟨hm.alive ▸ h.1, ?_⟩
  rcases h.2 with hres | hspawned
  · by_cases hw : w = c
    · subst hw
      exact absurd (hm.self.symm.trans hres) (hcall root)
    · exact .inl ((hm.other hw).symm.trans hres)
  · exact .inr (hm.spawned ▸ hspawned)

variable [DecidableEq Root]

theorem Inv.made (h : Inv s) (hold : s.call c ≠ .ended) : c < s.calls := by
  by_contra hc
  exact hold (h.fresh c (Nat.le_of_not_lt hc)).1

/-- A call takes a step: what it has to show. -/
theorem Inv.change (h : Inv s) (hold : s.call c ≠ .ended) (hl : Later s s') (hcalls : s'.calls = s.calls)
    (hcall : ∀ c', c' ≠ c → s'.call c' = s.call c') (hspawned : ∀ c', c' ≠ c → s'.spawned c' = s.spawned c')
    (hentries : ∀ root entry, s'.registry.lookup root = some entry → EntryOk s' root entry)
    (hself : CallOk s' c (s'.call c)) (hstored : ∀ w, s'.stored w = true → s'.spawned w ≠ none)
    (hslots : Slots s') : Inv s' := by
  refine ⟨hentries, fun c' => ?_, fun c' hc' => ?_, hstored, hslots⟩
  · by_cases hc : c' = c
    · exact hc ▸ hself
    · rw [hcall c' hc]
      exact (h.calls c').later hl (hspawned c' hc)
  · have hlt := h.made hold
    have hne : c' ≠ c := by omega
    rw [hcall c' hne, hspawned c' hne]
    exact h.fresh c' (hcalls ▸ hc')

theorem Inv.move (h : Inv s) (hold : s.call c ≠ .ended) (hm : Moved s s' c call) (hself : CallOk s c call)
    (hentries : ∀ root entry, s'.registry.lookup root = some entry → EntryOk s root entry)
    (hstored : ∀ w, s'.stored w = true → s.spawned w ≠ none) (hslots : Slots s') : Inv s' := by
  refine h.change hold hm.later hm.calls (fun c' hc => hm.other hc) (fun c' _ => by rw [hm.spawned])
    (fun root entry he => (hentries root entry he).later hm.later) ?_ (fun w hw => hm.spawned ▸ hstored w hw) hslots
  rw [hm.self]
  exact hself.later hm.later (by rw [hm.spawned])

end Keeps

section Registry

variable [DecidableEq Root] {s s' : State Root Key} {c w : Nat} {root : Root} {entry entry' : WatcherEntry Key}

theorem slot_eq_some {alive : Nat} :
    slot s root alive = some entry ↔ s.registry.lookup root = some entry ∧ entry.alive = alive := by
  rw [slot, Option.filter_eq_some_iff, decide_eq_true_iff]

theorem slot_eq_none {alive : Nat} (h : slot s root alive = none) : ¬Occupies s.registry root alive := by
  rintro ⟨entry, hlook, halive⟩
  cases h.symm.trans (slot_eq_some.mpr ⟨hlook, halive⟩)

/-- The entry that a call finds by its `shutdown` flag is the one it has made. -/
theorem Inv.made_by (h : Inv s) (hfound : ((s.registry.lookup root).filter fun e => e.shutdown = c) = some entry) :
    s.registry.lookup root = some entry ∧ entry.alive = c := by
  obtain ⟨hlook, hshutdown⟩ := Option.filter_eq_some_iff.mp hfound
  exact ⟨hlook, (h.entries root entry hlook).shutdown.symm.trans (of_decide_eq_true hshutdown)⟩

theorem Occupies.insert {registry : Table Root (WatcherEntry Key)} {root' : Root}
    (h : Occupies registry root' w) (hlook : registry.lookup root = some entry) (halive : entry'.alive = entry.alive) :
    Occupies (registry.insert root entry') root' w := by
  obtain ⟨e, he, hw⟩ := h
  by_cases hroot : root' = root
  · subst hroot
    cases he.symm.trans hlook
    exact ⟨entry', AList.lookup_insert registry, halive.trans hw⟩
  · exact ⟨e, (AList.lookup_insert_ne hroot).trans he, hw⟩

theorem Occupies.erase {registry : Table Root (WatcherEntry Key)} {root' : Root}
    (h : Occupies registry root' w) (hlook : registry.lookup root = some entry) (hne : w ≠ entry.alive) :
    Occupies (registry.erase root) root' w := by
  obtain ⟨e, he, hw⟩ := h
  have hroot : root' ≠ root := by
    rintro rfl
    cases he.symm.trans hlook
    exact hne hw.symm
  exact ⟨e, (AList.lookup_erase_ne hroot).trans he, hw⟩

theorem entries_insert {P : Root → WatcherEntry Key → Prop} {registry : Table Root (WatcherEntry Key)}
    (h : ∀ r e, registry.lookup r = some e → P r e) (hentry : P root entry') :
    ∀ r e, (registry.insert root entry').lookup r = some e → P r e := by
  intro r e he
  by_cases hroot : r = root
  · subst hroot
    cases (AList.lookup_insert registry).symm.trans he
    exact hentry
  · exact h r e ((AList.lookup_insert_ne hroot).symm.trans he)

theorem entries_erase {P : Root → WatcherEntry Key → Prop} {registry : Table Root (WatcherEntry Key)}
    (h : ∀ r e, registry.lookup r = some e → P r e) :
    ∀ r e, (registry.erase root).lookup r = some e → P r e := by
  intro r e he
  by_cases hroot : r = root
  · subst hroot
    cases (AList.lookup_erase r registry).symm.trans he
  · exact h r e ((AList.lookup_erase_ne hroot).symm.trans he)

end Registry

section Sections

variable [DecidableEq Root] {s s' : State Root Key} {c : Nat} {call : Call Root Key} {root : Root}
  {entry entry' : WatcherEntry Key}

theorem Inv.sameRegistry (h : Inv s) (call : Call Root Key) (hold : s.call c ≠ .ended) (hm : Moved s s' c call) (hself : CallOk s c call)
    (hcall : ∀ root, call ≠ .reserved root) (hreg : s'.registry = s.registry) (hdetached : s'.detached = s.detached)
    (hstored : s'.stored = s.stored) : Inv s' := by
  refine h.move hold hm hself (hreg ▸ h.entries) (hstored ▸ h.stored) fun w root hlive hw => ?_
  rw [hreg]
  exact h.slots w root (hm.live hcall hlive) (hdetached ▸ hw)

/-- A section that writes the entry of a root again. -/
theorem Inv.rewrites (h : Inv s) (call : Call Root Key) (hold : s.call c ≠ .ended) (hm : Moved s s' c call) (hself : CallOk s c call)
    (hcall : ∀ root, call ≠ .reserved root) (hlook : s.registry.lookup root = some entry)
    (hreg : s'.registry = s.registry.insert root entry') (hentry : EntryOk s root entry')
    (halive : entry'.alive = entry.alive) (hdetached : s'.detached = s.detached)
    (hstored : ∀ w, s'.stored w = true → s.spawned w ≠ none) : Inv s' := by
  refine h.move hold hm hself ?_ hstored fun w root' hlive hw => ?_
  · rw [hreg]
    exact entries_insert h.entries hentry
  · rw [hreg]
    exact (h.slots w root' (hm.live hcall hlive) (hdetached ▸ hw)).insert hlook halive

/-- A section that removes an entry whose watcher is not live, or is detached by it. -/
theorem Inv.erases (h : Inv s) (call : Call Root Key) (hold : s.call c ≠ .ended) (hm : Moved s s' c call) (hself : CallOk s c call)
    (hcall : ∀ root, call ≠ .reserved root) (hlook : s.registry.lookup root = some entry)
    (hreg : s'.registry = s.registry.erase root)
    (hgone : ∀ root', Live s' entry.alive root' → s'.detached entry.alive = false → False)
    (hdetached : ∀ w, s'.detached w = false → s.detached w = false) (hstored : s'.stored = s.stored) : Inv s' := by
  refine h.move hold hm hself ?_ (hstored ▸ h.stored) fun w root' hlive hw => ?_
  · rw [hreg]
    exact entries_erase h.entries
  · rw [hreg]
    refine (h.slots w root' (hm.live hcall hlive) (hdetached w hw)).erase hlook ?_
    rintro rfl
    exact hgone root' hlive hw

variable {configKey : Key} {taken : Taken Root} {rest : List (Taken Root)}

theorem Inv.reserve [DecidableEq Key] (h : Inv s) (hpc : s.call c = .reserving root configKey) : Inv (reserve s c root configKey) := by
  have hold : s.call c ≠ .ended := by rw [hpc]; exact nofun
  have hself := h.calls c
  rw [hpc] at hself
  unfold Watchers.reserve
  split
  · rename_i entry hfound
    obtain ⟨hlook, -⟩ := Option.filter_eq_some_iff.mp hfound
    have hentry := h.entries root entry hlook
    split
    · exact h.sameRegistry .ended hold ⟨rfl, rfl, rfl, rfl⟩ trivial nofun rfl rfl rfl
    · exact h.rewrites (.reserveWaiting configKey ⟨root, entry.alive, entry.thread⟩) hold ⟨rfl, rfl, rfl, rfl⟩
        ⟨hself, hentry.taken⟩ nofun hlook rfl ⟨hentry.shutdown, hentry.made, nofun⟩ rfl rfl h.stored
  · rename_i hfree
    have hm : Moved s ((s.insert root ⟨c, c, configKey, none, none⟩).setCall c (.reserved root)) c (.reserved root) :=
      ⟨rfl, rfl, rfl, rfl⟩
    refine h.move hold hm hself (entries_insert h.entries ⟨rfl, h.made hold, nofun⟩) h.stored fun w root' hlive hw => ?_
    by_cases hwc : w = c
    · -- the new reservation, on its own root only
      subst hwc
      rcases hlive.2 with hres | hspawned
      · cases hm.self.symm.trans hres
        exact ⟨_, AList.lookup_insert _, rfl⟩
      · cases hself.symm.trans hspawned
    · have hlive₀ : Live s w root' :=
        ⟨hlive.1, hlive.2.imp (fun hres => (hm.other hwc).symm.trans hres) id⟩
      obtain ⟨e, he, halive⟩ := h.slots w root' hlive₀ hw
      have hroot : root' ≠ root := by
        rintro rfl
        have halive' : s.alive e.alive = true := (congrArg s.alive halive).trans hlive.1
        rw [he, Option.filter_some, if_pos halive'] at hfree
        cases hfree
      exact ⟨e, (AList.lookup_insert_ne hroot).trans he, halive⟩

theorem Inv.reserveTimeout (h : Inv s) (hpc : s.call c = .reserveTimedOut configKey taken) :
    Inv (reserveTimeout s c configKey taken) := by
  have hold : s.call c ≠ .ended := by rw [hpc]; exact nofun
  have hself := h.calls c
  rw [hpc] at hself
  unfold Watchers.reserveTimeout
  split
  · exact h.sameRegistry .ended hold ⟨rfl, rfl, rfl, rfl⟩ trivial nofun rfl rfl rfl
  · rename_i entry hslot
    obtain ⟨hlook, halive⟩ := slot_eq_some.mp hslot
    have hentry := h.entries taken.root entry hlook
    split
    · refine h.erases (.reserving taken.root configKey) hold ⟨rfl, rfl, rfl, rfl⟩ hself.1 nofun hlook rfl
        (fun root' _ hw => ?_) (fun w hw => ?_) rfl
      · rw [halive] at hw
        cases (Function.update_self taken.alive true s.detached).symm.trans hw
      · by_cases hwa : w = taken.alive
        · subst hwa
          cases (Function.update_self taken.alive true s.detached).symm.trans hw
        · exact (Function.update_of_ne hwa true s.detached).symm.trans hw
    · refine h.rewrites .ended hold ⟨rfl, rfl, rfl, rfl⟩ trivial nofun hlook rfl
        ⟨hentry.shutdown, hentry.made, fun x hx => ?_⟩ rfl rfl h.stored
      exact ⟨(hself.2.thread x hx).1.trans halive.symm, (hself.2.thread x hx).2⟩

theorem Inv.putBack (h : Inv s) (hpc : s.call c = .stopTimedOut taken rest) :
    Inv ((putBack s taken).setCall c (stopNext rest)) := by
  have hold : s.call c ≠ .ended := by rw [hpc]; exact nofun
  have hself := h.calls c
  rw [hpc] at hself
  have htaken : TakenOk s taken := hself taken (List.mem_cons_self ..)
  have hrest : CallOk s c (stopNext rest) := callOk_stopNext fun t ht => hself t (List.mem_cons_of_mem _ ht)
  unfold Watchers.putBack
  split
  · rename_i entry hslot
    obtain ⟨hlook, halive⟩ := slot_eq_some.mp hslot
    have hentry := h.entries taken.root entry hlook
    refine h.rewrites _ hold ⟨rfl, rfl, rfl, rfl⟩ hrest (stopNext_ne_reserved rest) hlook rfl
      ⟨hentry.shutdown, hentry.made, fun x hx => ?_⟩ rfl rfl h.stored
    exact ⟨(htaken.thread x hx).1.trans halive.symm, (htaken.thread x hx).2⟩
  · exact h.sameRegistry _ hold ⟨rfl, rfl, rfl, rfl⟩ hrest (stopNext_ne_reserved rest) rfl rfl rfl

theorem Inv.reap {alive : Nat} (h : Inv s) (hpc : s.call c = .stopReaping root alive rest) :
    Inv (match slot s root alive with
      | some _ => (s.erase root).setCall c (stopNext rest)
      | none => s.setCall c (stopNext rest)) := by
  have hold : s.call c ≠ .ended := by rw [hpc]; exact nofun
  have hself := h.calls c
  rw [hpc] at hself
  obtain ⟨⟨-, hdead⟩, hrest⟩ := hself
  split
  · rename_i entry hslot
    obtain ⟨hlook, halive⟩ := slot_eq_some.mp hslot
    refine h.erases _ hold ⟨rfl, rfl, rfl, rfl⟩ (callOk_stopNext hrest) (stopNext_ne_reserved rest) hlook rfl
      (fun root' hlive _ => ?_) (fun w hw => hw) rfl
    rw [halive] at hlive
    cases hdead.symm.trans hlive.1
  · exact h.sameRegistry _ hold ⟨rfl, rfl, rfl, rfl⟩ (callOk_stopNext hrest) (stopNext_ne_reserved rest) rfl rfl rfl

/-- A reservation that is dropped. -/
theorem Inv.release (h : Inv s) (hpc : s.call c = .reserved root) :
    Inv (match (s.registry.lookup root).filter fun entry => entry.shutdown = c with
      | some _ => (s.erase root).setCall c .ended
      | none => s.setCall c .ended) := by
  have hold : s.call c ≠ .ended := by rw [hpc]; exact nofun
  have hself : s.spawned c = none := by
    have hc := h.calls c
    rwa [hpc] at hc
  split
  · rename_i entry hfound
    obtain ⟨hlook, halive⟩ := h.made_by hfound
    have hm : Moved s ((s.erase root).setCall c .ended) c .ended := ⟨rfl, rfl, rfl, rfl⟩
    refine h.erases _ hold hm trivial nofun hlook rfl (fun root' hlive _ => ?_) (fun w hw => hw) rfl
    rw [halive] at hlive
    rcases hlive.2 with hres | hspawned
    · cases hm.self.symm.trans hres
    · cases hself.symm.trans hspawned
  · exact h.sameRegistry .ended hold ⟨rfl, rfl, rfl, rfl⟩ trivial nofun rfl rfl rfl

theorem Inv.store (h : Inv s) (hpc : s.call c = .storing root) :
    Inv (match (s.registry.lookup root).filter fun entry => entry.shutdown = c with
      | some entry => { (s.insert root { entry with thread := some c }).setCall c .ended with
          stored := Function.update s.stored c true }
      | none => s.setCall c .ended) := by
  have hold : s.call c ≠ .ended := by rw [hpc]; exact nofun
  have hself : s.spawned c = some root := by
    have hc := h.calls c
    rwa [hpc] at hc
  split
  · rename_i entry hfound
    obtain ⟨hlook, halive⟩ := h.made_by hfound
    have hentry := h.entries root entry hlook
    refine h.rewrites .ended hold ⟨rfl, rfl, rfl, rfl⟩ trivial nofun hlook rfl
      ⟨hentry.shutdown, hentry.made, ?_⟩ rfl rfl fun w hw => ?_
    · rintro x ⟨⟩
      exact ⟨halive.symm, hself⟩
    · by_cases hwc : w = c
      · rw [hwc, hself]
        exact nofun
      · exact h.stored w ((Function.update_of_ne hwc true s.stored).symm.trans hw)
  · exact h.sameRegistry .ended hold ⟨rfl, rfl, rfl, rfl⟩ trivial nofun rfl rfl rfl

/-- The thread of a reservation is spawned. -/
theorem Inv.spawn (h : Inv s) (hpc : s.call c = .reserved root) :
    Inv { s.setCall c (.storing root) with spawned := Function.update s.spawned c (some root) } := by
  have hold : s.call c ≠ .ended := by rw [hpc]; exact nofun
  have hself : s.spawned c = none := by
    have hc := h.calls c
    rwa [hpc] at hc
  have hcall : ∀ c', c' ≠ c → Function.update s.call c (.storing root) c' = s.call c' :=
    fun c' hc => Function.update_of_ne hc _ _
  have hspawned : ∀ c', c' ≠ c → Function.update s.spawned c (some root) c' = s.spawned c' :=
    fun c' hc => Function.update_of_ne hc _ _
  have hnow : Function.update s.call c (.storing root) c = .storing root := Function.update_self _ _ _
  have hspawned_c : Function.update s.spawned c (some root) c = some root := Function.update_self _ _ _
  have hl : Later s { s.setCall c (.storing root) with spawned := Function.update s.spawned c (some root) } := by
    refine ⟨Nat.le_refl _, fun x r hx => ?_, fun x _ hx => hx⟩
    by_cases hxc : x = c
    · subst hxc
      cases hself.symm.trans hx
    · exact (hspawned x hxc).trans hx
  refine h.change hold hl rfl hcall hspawned (fun r e he => (h.entries r e he).later hl) ?_ (fun w hw => ?_)
    fun w root' hlive hw => ?_
  · change CallOk _ c (Function.update s.call c (.storing root) c)
    rw [hnow]
    exact hspawned_c
  · by_cases hwc : w = c
    · subst hwc
      exact absurd hself (h.stored w hw)
    · have hne := h.stored w hw
      rw [← hspawned w hwc] at hne
      exact hne
  · by_cases hwc : w = c
    · subst hwc
      rcases hlive.2 with hres | hroot
      · cases hnow.symm.trans hres
      · cases hspawned_c.symm.trans hroot
        exact h.slots w root ⟨hlive.1, .inl hpc⟩ hw
    · exact h.slots w root' ⟨hlive.1, hlive.2.imp (fun hres => (hcall w hwc).symm.trans hres)
        fun hroot => (hspawned w hwc).symm.trans hroot⟩ hw

end Sections

section Signal

variable [DecidableEq Root]

/-- What the first section of a stop does: every handle it takes is in its list. -/
structure Signalled (s : State Root Key) (roots : List Root) (s' : State Root Key) (pending : List (Taken Root)) :
    Prop where
  alive : s'.alive = s.alive
  calls : s'.calls = s.calls
  call : s'.call = s.call
  spawned : s'.spawned = s.spawned
  stored : s'.stored = s.stored
  detached : s'.detached = s.detached
  entries : (∀ root entry, s.registry.lookup root = some entry → EntryOk s root entry) →
    (∀ root entry, s'.registry.lookup root = some entry → EntryOk s root entry) ∧ ∀ taken ∈ pending, TakenOk s taken
  kept : ∀ root entry, s.registry.lookup root = some entry → ∃ entry', s'.registry.lookup root = some entry' ∧
    entry'.alive = entry.alive ∧ ∀ w, entry.thread = some w → entry'.thread = some w ∨ w ∈ pending.filterMap Taken.thread
  outside : ∀ root, root ∉ roots → s'.registry.lookup root = s.registry.lookup root

theorem Signalled.refl {s : State Root Key} {roots : List Root} : Signalled s roots s [] :=
  ⟨rfl, rfl, rfl, rfl, rfl, rfl, fun h => ⟨h, nofun⟩, fun _ entry h => ⟨entry, h, rfl, fun _ hw => .inl hw⟩,
    fun _ _ => rfl⟩

theorem signalled_signal {s s' : State Root Key} {root : Root} {roots : List Root} {entry : WatcherEntry Key}
    {pending : List (Taken Root)} (hlook : s.registry.lookup root = some entry)
    (h : Signalled (signal s root entry) roots s' pending) :
    Signalled s (root :: roots) s' (⟨root, entry.alive, entry.thread⟩ :: pending) := by
  have hl : Later (signal s root entry) s := ⟨Nat.le_refl _, fun x r hx => hx, fun x _ hx => hx⟩
  have hl' : Later s (signal s root entry) := ⟨Nat.le_refl _, fun x r hx => hx, fun x _ hx => hx⟩
  refine ⟨h.alive, h.calls, h.call, h.spawned, h.stored, h.detached, fun hentries => ?_, fun r e he => ?_,
    fun r hr => ?_⟩
  · have hentry := hentries root entry hlook
    have hnow : ∀ r e, (signal s root entry).registry.lookup r = some e → EntryOk s r e :=
      entries_insert hentries ⟨hentry.shutdown, hentry.made, nofun⟩
    obtain ⟨hafter, hpending⟩ := h.entries fun r e he => (hnow r e he).later hl'
    refine ⟨fun r e he => (hafter r e he).later hl, fun taken htaken => ?_⟩
    rcases List.mem_cons.mp htaken with rfl | htaken
    · exact hentry.taken
    · exact (hpending taken htaken).later hl
  · by_cases hroot : r = root
    · subst hroot
      cases hlook.symm.trans he
      obtain ⟨e', he', halive, -⟩ := h.kept r { entry with thread := none } (AList.lookup_insert _)
      refine ⟨e', he', halive, fun w hw => .inr (List.mem_filterMap.mpr ⟨_, List.mem_cons_self .., hw⟩)⟩
    · obtain ⟨e', he', halive, hthread⟩ := h.kept r e ((AList.lookup_insert_ne hroot).trans he)
      refine ⟨e', he', halive, fun w hw => (hthread w hw).imp id fun hmem => ?_⟩
      obtain ⟨taken, htaken, hw'⟩ := List.mem_filterMap.mp hmem
      exact List.mem_filterMap.mpr ⟨taken, List.mem_cons_of_mem _ htaken, hw'⟩
  · have hroot := List.ne_of_not_mem_cons hr
    exact (h.outside r (List.not_mem_of_not_mem_cons hr)).trans (AList.lookup_insert_ne hroot)

theorem signalAll_signals (roots : List Root) : ∀ s : State Root Key,
    Signalled s roots (signalAll s roots).1 (signalAll s roots).2 := by
  induction roots with
  | nil => exact fun s => .refl
  | cons root roots ih =>
    intro s
    rw [signalAll]
    split
    · have h := ih s
      exact { h with outside := fun r hr => h.outside r (List.not_mem_of_not_mem_cons hr) }
    · rename_i entry hlook
      exact signalled_signal hlook (ih (signal s root entry))

theorem Inv.beginStop {s : State Root Key} (h : Inv s) (roots : List Root) : Inv (beginStop s roots) := by
  have hs := signalAll_signals roots s
  obtain ⟨hentries, hpending⟩ := hs.entries h.entries
  have hl : Later s (Watchers.beginStop s roots) :=
    ⟨Nat.le_succ _, fun x r hx => (congrFun hs.spawned x).trans hx, fun x _ hx => (congrFun hs.alive x).trans hx⟩
  obtain ⟨hended, hunspawned⟩ := h.fresh s.calls (Nat.le_refl _)
  have hself : (Watchers.beginStop s roots).call s.calls = stopNext (signalAll s roots).2 := Function.update_self _ _ _
  have hother : ∀ c, c ≠ s.calls → (Watchers.beginStop s roots).call c = s.call c :=
    fun c hc => (Function.update_of_ne hc _ _).trans (congrFun hs.call c)
  have hspawned : (Watchers.beginStop s roots).spawned = s.spawned := hs.spawned
  refine ⟨fun r e he => (hentries r e he).later hl, fun c => ?_, fun c hc => ?_, fun w hw => ?_, fun w r hlive hw => ?_⟩
  · by_cases hc : c = s.calls
    · subst hc
      rw [hself]
      exact (callOk_stopNext hpending).later hl (by rw [hspawned])
    · rw [hother c hc]
      exact (h.calls c).later hl (by rw [hspawned])
  · have hlt : s.calls < c := hc
    rw [hother c hlt.ne', hspawned]
    exact h.fresh c hlt.le
  · rw [hspawned]
    exact h.stored w ((congrFun hs.stored w).symm.trans hw)
  · have hlive₀ : Live s w r := by
      refine ⟨(congrFun hs.alive w).symm.trans hlive.1, ?_⟩
      rcases hlive.2 with hres | hroot
      · by_cases hwc : w = s.calls
        · subst hwc
          exact absurd (hself.symm.trans hres) (stopNext_ne_reserved _ r)
        · exact .inl ((hother w hwc).symm.trans hres)
      · exact .inr (hspawned ▸ hroot)
    obtain ⟨e, he, halive⟩ := h.slots w r hlive₀ ((congrFun hs.detached w).symm.trans hw)
    obtain ⟨e', he', halive', -⟩ := hs.kept r e he
    exact ⟨e', he', halive'.trans halive⟩

end Signal

section Steps

variable [DecidableEq Root] {s s' : State Root Key}

theorem Inv.ensure (h : Inv s) (root : Root) (configKey : Key) :
    Inv { s.setCall s.calls (.reserving root configKey) with
      calls := s.calls + 1
      shutdown := Function.update s.shutdown s.calls false
      alive := Function.update s.alive s.calls true } := by
  obtain ⟨hended, hunspawned⟩ := h.fresh s.calls (Nat.le_refl _)
  have hself : Function.update s.call s.calls (.reserving root configKey) s.calls = .reserving root configKey :=
    Function.update_self _ _ _
  have hother : ∀ c, c ≠ s.calls → Function.update s.call s.calls (.reserving root configKey) c = s.call c :=
    fun c hc => Function.update_of_ne hc _ _
  have halive : ∀ x, x ≠ s.calls → Function.update s.alive s.calls true x = s.alive x :=
    fun x hx => Function.update_of_ne hx _ _
  have hl : Later s { s.setCall s.calls (.reserving root configKey) with
      calls := s.calls + 1
      shutdown := Function.update s.shutdown s.calls false
      alive := Function.update s.alive s.calls true } :=
    ⟨Nat.le_succ _, fun x r hx => hx, fun x hx hdead => (halive x hx.ne).trans hdead⟩
  refine ⟨fun r e he => (h.entries r e he).later hl, fun c => ?_, fun c hc => ?_, h.stored, fun w r hlive hw => ?_⟩
  · change CallOk _ c (Function.update s.call s.calls (.reserving root configKey) c)
    by_cases hc : c = s.calls
    · subst hc
      rw [hself]
      exact hunspawned
    · rw [hother c hc]
      exact (h.calls c).later hl rfl
  · have hlt : s.calls < c := hc
    exact ⟨(hother c hlt.ne').trans (h.fresh c hlt.le).1, (h.fresh c hlt.le).2⟩
  · have hwc : w ≠ s.calls := by
      rintro rfl
      rcases hlive.2 with hres | hroot
      · cases hself.symm.trans hres
      · cases hunspawned.symm.trans hroot
    exact h.slots w r ⟨(halive w hwc).symm.trans hlive.1, hlive.2.imp (fun hres => (hother w hwc).symm.trans hres) id⟩ hw

theorem Initial.inv (h : Initial s) : Inv s := by
  refine ⟨fun r e he => ?_, fun c => ?_, fun c _ => ⟨h.call c, h.spawned c⟩, fun w hw => ?_, fun w r hlive _ => ?_⟩
  · rw [h.registry] at he
    cases he
  · rw [h.call c]
    trivial
  · cases (h.stored w).symm.trans hw
  · rcases hlive.2 with hres | hroot
    · cases (h.call w).symm.trans hres
    · cases (h.spawned w).symm.trans hroot

theorem Inv.oneWatcher (h : Inv s) : OneWatcher s := by
  intro root w w' hw hw' hfree hfree'
  obtain ⟨e, he, halive⟩ := h.slots w root hw hfree
  obtain ⟨e', he', halive'⟩ := h.slots w' root hw' hfree'
  cases he.symm.trans he'
  exact halive.symm.trans halive'

variable [DecidableEq Key]

theorem Inv.advance (h : Inv s) {c : Nat} {answer : Bool} (hstep : advance s c answer = .next s') : Inv s' := by
  have hself := h.calls c
  unfold Watchers.advance at hstep
  cases hpc : s.call c with
  | ended =>
    rw [hpc] at hstep
    cases hstep
  | reserving root configKey =>
    rw [hpc] at hstep
    cases hstep
    exact h.reserve hpc
  | reserveWaiting configKey taken =>
    rw [hpc] at hstep hself
    have hold : s.call c ≠ .ended := by rw [hpc]; exact nofun
    cases answer with
    | true =>
      simp only [if_true] at hstep
      split at hstep
      · cases hstep
      · cases hstep
        exact h.sameRegistry (.reserving taken.root configKey) hold ⟨rfl, rfl, rfl, rfl⟩ hself.1 nofun rfl rfl rfl
    | false =>
      cases hstep
      exact h.sameRegistry (.reserveTimedOut configKey taken) hold ⟨rfl, rfl, rfl, rfl⟩ hself nofun rfl rfl rfl
  | reserveTimedOut configKey taken =>
    rw [hpc] at hstep
    cases hstep
    exact h.reserveTimeout hpc
  | reserved root =>
    rw [hpc] at hstep
    cases answer with
    | true =>
      cases hstep
      exact h.spawn hpc
    | false =>
      have hafter := h.release hpc
      simp only [Bool.false_eq_true, if_false] at hstep
      split at hstep
      all_goals
        rename_i hfound
        cases hstep
        rw [hfound] at hafter
        exact hafter
  | storing root =>
    rw [hpc] at hstep
    have hafter := h.store hpc
    simp only at hstep
    split at hstep
    all_goals
      rename_i hfound
      cases hstep
      rw [hfound] at hafter
      exact hafter
  | stopWaiting pending =>
    have hold : s.call c ≠ .ended := by rw [hpc]; exact nofun
    rw [hpc] at hstep hself
    cases pending with
    | nil =>
      cases hstep
      exact h.sameRegistry .ended hold ⟨rfl, rfl, rfl, rfl⟩ trivial nofun rfl rfl rfl
    | cons taken rest =>
      cases answer with
      | true =>
        simp only [if_true] at hstep
        split at hstep
        · cases hstep
        · rename_i hdead
          cases hstep
          have htaken := hself taken (List.mem_cons_self ..)
          exact h.sameRegistry (.stopReaping taken.root taken.alive rest) hold ⟨rfl, rfl, rfl, rfl⟩
            ⟨⟨htaken.made, Bool.eq_false_iff.mpr hdead⟩, fun t ht => hself t (List.mem_cons_of_mem _ ht)⟩ nofun rfl rfl rfl
      | false =>
        cases hstep
        exact h.sameRegistry (.stopTimedOut taken rest) hold ⟨rfl, rfl, rfl, rfl⟩ hself nofun rfl rfl rfl
  | stopReaping root alive rest =>
    rw [hpc] at hstep
    have hafter := h.reap hpc
    simp only at hstep
    split at hstep
    all_goals
      rename_i hfound
      cases hstep
      rw [hfound] at hafter
      exact hafter
  | stopTimedOut taken rest =>
    rw [hpc] at hstep
    cases hstep
    exact h.putBack hpc

theorem inv_step {a : Act Root Key} (h : Inv s) (hstep : step s a = .next s') : Inv s' := by
  cases a with
  | ensure root configKey =>
    cases hstep
    exact h.ensure root configKey
  | stopProject root =>
    cases hstep
    exact h.beginStop [root]
  | stopAll roots =>
    simp only [step] at hstep
    split at hstep
    · cases hstep
      exact h.beginStop roots
    · cases hstep
  | retain =>
    cases hstep
    have hl : Later s { s with registry := s.registry.deleteRows fun entry => !s.alive entry.alive } :=
      ⟨Nat.le_refl _, fun x r hx => hx, fun x _ hx => hx⟩
    refine ⟨fun r e he => ?_, fun c => (h.calls c).later hl rfl, h.fresh, h.stored, fun w r hlive hw => ?_⟩
    · rw [Table.lookup_deleteRows, Option.filter_eq_some_iff] at he
      exact (h.entries r e he.1).later hl
    · obtain ⟨e, he, halive⟩ := h.slots w r hlive hw
      have hkeep : s.alive e.alive = true := (congrArg s.alive halive).trans hlive.1
      refine ⟨e, ?_, halive⟩
      rw [Table.lookup_deleteRows, he, Option.filter_some, hkeep]
      rfl
  | go c answer => exact h.advance hstep
  | exit w =>
    simp only [step] at hstep
    split at hstep
    · cases hstep
      have hdown : ∀ x, Function.update s.alive w false x = true → s.alive x = true := by
        intro x hx
        by_cases hxw : x = w
        · subst hxw
          cases (Function.update_self x false s.alive).symm.trans hx
        · exact (Function.update_of_ne hxw _ _).symm.trans hx
      have hl : Later s { s with alive := Function.update s.alive w false } :=
        ⟨Nat.le_refl _, fun x r hx => hx,
          fun x _ hdead => Bool.eq_false_iff.mpr fun hx => Bool.eq_false_iff.mp hdead (hdown x hx)⟩
      exact ⟨fun r e he => (h.entries r e he).later hl, fun c => (h.calls c).later hl rfl, h.fresh, h.stored,
        fun x r hlive hx => h.slots x r ⟨hdown x hlive.1, hlive.2⟩ hx⟩
    · cases hstep
  | tick seconds =>
    cases hstep
    have hl : Later s { s with now := s.now + seconds } := ⟨Nat.le_refl _, fun x r hx => hx, fun x _ hx => hx⟩
    exact ⟨fun r e he => (h.entries r e he).later hl, fun c => (h.calls c).later hl rfl, h.fresh, h.stored, h.slots⟩

end Steps

section Own

variable [DecidableEq Root] {s s' : State Root Key} {root : Root} {entry entry' : WatcherEntry Key} {alive : Nat}

theorem own_insert (hlook : s.registry.lookup root = some entry) (halive : entry.alive = alive) :
    ∀ root' e, s.registry.lookup root' = some e →
      (s.registry.insert root entry').lookup root' = some e ∨ root' = root ∧ e.alive = alive := by
  intro root' e he
  by_cases hroot : root' = root
  · subst hroot
    cases he.symm.trans hlook
    exact .inr ⟨rfl, halive⟩
  · exact .inl ((AList.lookup_insert_ne hroot).trans he)

theorem own_erase (hlook : s.registry.lookup root = some entry) (halive : entry.alive = alive) :
    ∀ root' e, s.registry.lookup root' = some e →
      (s.registry.erase root).lookup root' = some e ∨ root' = root ∧ e.alive = alive := by
  intro root' e he
  by_cases hroot : root' = root
  · subst hroot
    cases he.symm.trans hlook
    exact .inr ⟨rfl, halive⟩
  · exact .inl ((AList.lookup_erase_ne hroot).trans he)

variable [DecidableEq Key]

theorem Inv.settles (h : Inv s) {c : Nat} {answer : Bool} (hstep : Watchers.advance s c answer = .next s')
    (htarget : (s.call c).target c = some (root, alive)) : ∀ root' e, s.registry.lookup root' = some e →
      s'.registry.lookup root' = some e ∨ root' = root ∧ e.alive = alive := by
  unfold Watchers.advance at hstep
  cases hpc : s.call c with
  | reserveTimedOut configKey taken =>
    rw [hpc] at hstep htarget
    cases hstep
    cases htarget
    unfold Watchers.reserveTimeout
    split
    · exact fun root' e he => .inl he
    · rename_i entry hslot
      obtain ⟨hlook, halive⟩ := slot_eq_some.mp hslot
      split
      · exact own_erase hlook halive
      · exact own_insert hlook halive
  | reserved root =>
    rw [hpc] at hstep htarget
    cases htarget
    cases answer with
    | true =>
      cases hstep
      exact fun root' e he => .inl he
    | false =>
      simp only [Bool.false_eq_true, if_false] at hstep
      split at hstep
      · rename_i entry hfound
        cases hstep
        exact own_erase (h.made_by hfound).1 (h.made_by hfound).2
      · cases hstep
        exact fun root' e he => .inl he
  | storing root =>
    rw [hpc] at hstep htarget
    cases htarget
    simp only at hstep
    split at hstep
    · rename_i entry hfound
      cases hstep
      exact own_insert (h.made_by hfound).1 (h.made_by hfound).2
    · cases hstep
      exact fun root' e he => .inl he
  | stopReaping root alive rest =>
    rw [hpc] at hstep htarget
    cases htarget
    simp only at hstep
    split at hstep
    · rename_i entry hslot
      cases hstep
      exact own_erase (slot_eq_some.mp hslot).1 (slot_eq_some.mp hslot).2
    · cases hstep
      exact fun root' e he => .inl he
  | stopTimedOut taken rest =>
    rw [hpc] at hstep htarget
    cases htarget
    cases hstep
    change ∀ root' e, s.registry.lookup root' = some e → (Watchers.putBack s taken).registry.lookup root' = some e ∨ _
    unfold Watchers.putBack
    split
    · rename_i entry hslot
      exact own_insert (slot_eq_some.mp hslot).1 (slot_eq_some.mp hslot).2
    · exact fun root' e he => .inl he
  | _ =>
    rw [hpc] at htarget
    cases htarget

theorem Inv.ownEntryOnly (h : Inv s) {a : Act Root Key} (hstep : step s a = .next s') : OwnEntryOnly s a s' := by
  constructor
  · rintro root rfl root' hroot
    cases hstep
    exact (signalAll_signals [root] s).outside root' (mt List.mem_singleton.mp hroot)
  · rintro c answer root alive rfl htarget
    exact h.settles hstep htarget

end Own

section Handles

variable {s s' : State Root Key} {c w : Nat} {root : Root} {call : Call Root Key}

theorem handles_stopNext (rest : List (Taken Root)) :
    (stopNext rest : Call Root Key).handles = rest.filterMap Taken.thread := by
  unfold stopNext
  split
  · rename_i hnil
    rw [List.isEmpty_iff.mp hnil]
    rfl
  · rfl

theorem mem_handles_of_thread {taken : Taken Root} (h : w ∈ taken.thread.toList) (hok : TakenOk s taken) :
    taken.thread = some w ∧ w = taken.alive ∧ s.spawned w = some taken.root :=
  have hthread := Option.mem_toList.mp h
  ⟨hthread, hok.thread w hthread⟩

variable [DecidableEq Root]

def Held (s : State Root Key) (w : Nat) (root : Root) : Prop :=
  (∃ entry, s.registry.lookup root = some entry ∧ entry.alive = w ∧ entry.thread = some w) ∨
    ∃ c, w ∈ (s.call c).handles

/-- The watchers whose handles a step must not lose. -/
structure Due (s s' : State Root Key) (w : Nat) (root : Root) : Prop where
  spawned : s.spawned w = some root
  alive : s.alive w = true
  detached : s'.detached w = false

/-- What a section has to show of the handles in the registry and of those of its call. -/
theorem HandlesHeld.move (h : HandlesHeld s) (call : Call Root Key) (hm : Moved s s' c call)
    (hdetached : ∀ w, s'.detached w = false → s.detached w = false)
    (hstored : ∀ w root, Due s s' w root → s'.stored w = true → s.stored w = true ∨ Held s' w root)
    (hentry : ∀ w root entry, Due s s' w root → s.registry.lookup root = some entry → entry.alive = w →
      entry.thread = some w → Held s' w root)
    (hcall : ∀ w root, Due s s' w root → w ∈ (s.call c).handles → Held s' w root) : HandlesHeld s' := by
  intro w root hspawned halive hfree hdone
  have hdue : Due s s' w root := ⟨hm.spawned ▸ hspawned, hm.alive ▸ halive, hfree⟩
  rcases hstored w root hdue hdone with hdone | hheld
  · rcases h w root hdue.spawned hdue.alive (hdetached w hfree) hdone with ⟨entry, hlook, hw, hthread⟩ | ⟨c', hmem⟩
    · exact hentry w root entry hdue hlook hw hthread
    · by_cases hc : c' = c
      · exact hcall w root hdue (hc ▸ hmem)
      · exact .inr ⟨c', by rw [hm.other hc]; exact hmem⟩
  · exact hheld

/-- A section that leaves the registry alone, or rewrites the entry of a root but for what is lost here. -/
theorem held_other {entry : WatcherEntry Key} {root' : Root} (hlook : s.registry.lookup root' = some entry)
    (hw : entry.alive = w) (hthread : entry.thread = some w) (hsame : s'.registry.lookup root' = s.registry.lookup root') :
    Held s' w root' := .inl ⟨entry, hsame.trans hlook, hw, hthread⟩

/-- A call puts back what it has taken. -/
theorem held_insert {entry entry' : WatcherEntry Key} {taken : Taken Root} (s' : State Root Key) (hok : TakenOk s taken)
    (hlook : s.registry.lookup taken.root = some entry) (halive : entry.alive = taken.alive)
    (hreg : s'.registry = s.registry.insert taken.root entry') (halive' : entry'.alive = entry.alive)
    (hthread' : entry'.thread = taken.thread) :
    (∀ w root, Due s s' w root → w ∈ taken.thread.toList → Held s' w root) ∧
      ((taken.thread = none → idle s entry = true) → ∀ w root e, Due s s' w root → s.registry.lookup root = some e →
        e.alive = w → e.thread = some w → Held s' w root) := by
  have hnew : s'.registry.lookup taken.root = some entry' := by
    rw [hreg]
    exact AList.lookup_insert _
  constructor
  · intro w root hdue hmem
    obtain ⟨hthread, hw, hspawned⟩ := mem_handles_of_thread hmem hok
    cases hdue.spawned.symm.trans hspawned
    exact .inl ⟨entry', hnew, by rw [halive', halive, hw], hthread'.trans hthread⟩
  · intro hidle w root e hdue he hw hthread
    by_cases hroot : root = taken.root
    · subst hroot
      cases hlook.symm.trans he
      cases htaken : taken.thread with
      | some x =>
        have hx : x = w := (hok.thread x htaken).1.trans (halive.symm.trans hw)
        exact .inl ⟨entry', hnew, halive'.trans hw, by rw [hthread', htaken, hx]⟩
      | none =>
        have hdead := hidle htaken
        rw [idle, hthread, Option.all_some, hdue.alive] at hdead
        cases hdead
    · refine held_other he hw hthread ?_
      rw [hreg]
      exact AList.lookup_insert_ne hroot

/-- A call has its handle in an entry that is there. -/
theorem Inv.taken_slot (h : Inv s) {taken : Taken Root} (hok : TakenOk s taken) (hnone : slot s taken.root taken.alive = none)
    (hdue : Due s s' w root) (hdetached : s'.detached = s.detached) (hmem : w ∈ taken.thread.toList) : False := by
  obtain ⟨-, hw, hspawned⟩ := mem_handles_of_thread hmem hok
  have hoccupies := h.slots w taken.root ⟨hdue.alive, .inr hspawned⟩ (hdetached ▸ hdue.detached)
  rw [hw] at hoccupies
  exact slot_eq_none hnone hoccupies

theorem HandlesHeld.sameRegistry (h : HandlesHeld s) (call : Call Root Key) (hm : Moved s s' c call) (hreg : s'.registry = s.registry)
    (hdetached : s'.detached = s.detached) (hstored : s'.stored = s.stored)
    (hcall : ∀ w root, Due s s' w root → w ∈ (s.call c).handles → w ∈ call.handles) : HandlesHeld s' := by
  refine h.move _ hm (fun w hw => hdetached ▸ hw) (fun w root _ hdone => .inl (hstored ▸ hdone))
    (fun w root entry _ hlook hw hthread => held_other hlook hw hthread (by rw [hreg])) fun w root hdue hmem => ?_
  exact .inr ⟨c, by rw [hm.self]; exact hcall w root hdue hmem⟩

/-- A section that removes an entry whose handle is not due. -/
theorem HandlesHeld.erases {entry : WatcherEntry Key} (h : HandlesHeld s) (call : Call Root Key) (hm : Moved s s' c call)
    (hlook : s.registry.lookup root = some entry) (hreg : s'.registry = s.registry.erase root)
    (hdetached : ∀ w, s'.detached w = false → s.detached w = false) (hstored : s'.stored = s.stored)
    (hgone : ∀ w, entry.alive = w → ¬Due s s' w root)
    (hcall : ∀ w root, Due s s' w root → w ∈ (s.call c).handles → w ∈ call.handles) : HandlesHeld s' := by
  refine h.move _ hm hdetached (fun w root _ hdone => .inl (hstored ▸ hdone)) (fun w r e hdue he hw hthread => ?_)
    fun w r hdue hmem => .inr ⟨c, by rw [hm.self]; exact hcall w r hdue hmem⟩
  by_cases hroot : r = root
  · subst hroot
    cases hlook.symm.trans he
    exact absurd hdue (hgone w hw)
  · refine held_other he hw hthread ?_
    rw [hreg]
    exact AList.lookup_erase_ne hroot

variable {configKey : Key} {taken : Taken Root} {rest : List (Taken Root)}

theorem HandlesHeld.reserve [DecidableEq Key] (h : HandlesHeld s) (hpc : s.call c = .reserving root configKey) :
    HandlesHeld (reserve s c root configKey) := by
  have hnone : ∀ w, w ∉ (s.call c).handles := by
    rw [hpc]
    exact fun w => List.not_mem_nil
  unfold Watchers.reserve
  split
  · rename_i entry hfound
    obtain ⟨hlook, -⟩ := Option.filter_eq_some_iff.mp hfound
    split
    · exact h.sameRegistry .ended ⟨rfl, rfl, rfl, rfl⟩ rfl rfl rfl fun w _ _ hmem => absurd hmem (hnone w)
    · have hm : Moved s ((signal s root entry).setCall c (.reserveWaiting configKey ⟨root, entry.alive, entry.thread⟩)) c
          (.reserveWaiting configKey ⟨root, entry.alive, entry.thread⟩) := ⟨rfl, rfl, rfl, rfl⟩
      refine h.move _ hm (fun w hw => hw) (fun w _ _ hdone => .inl hdone) (fun w r e _ he hw hthread => ?_)
        fun w _ _ hmem => absurd hmem (hnone w)
      by_cases hroot : r = root
      · subst hroot
        cases hlook.symm.trans he
        exact .inr ⟨c, by rw [hm.self]; exact Option.mem_toList.mpr hthread⟩
      · exact held_other he hw hthread (AList.lookup_insert_ne hroot)
  · rename_i hfree
    have hm : Moved s ((s.insert root ⟨c, c, configKey, none, none⟩).setCall c (.reserved root)) c (.reserved root) :=
      ⟨rfl, rfl, rfl, rfl⟩
    refine h.move _ hm (fun w hw => hw) (fun w _ _ hdone => .inl hdone) (fun w r e hdue he hw hthread => ?_)
      fun w _ _ hmem => absurd hmem (hnone w)
    have hroot : r ≠ root := by
      rintro rfl
      have hlive : s.alive e.alive = true := (congrArg s.alive hw).trans hdue.alive
      rw [he, Option.filter_some, if_pos hlive] at hfree
      cases hfree
    exact held_other he hw hthread (AList.lookup_insert_ne hroot)

theorem HandlesHeld.reserveTimeout [DecidableEq Key] (h : HandlesHeld s) (hinv : Inv s)
    (hpc : s.call c = .reserveTimedOut configKey taken) {answer : Bool} (hok : undisturbed s (.go c answer) = true) :
    HandlesHeld (reserveTimeout s c configKey taken) := by
  have hself := hinv.calls c
  rw [hpc] at hself
  have hmem : ∀ w, w ∈ (s.call c).handles → w ∈ taken.thread.toList := fun w hw => by rwa [hpc] at hw
  unfold Watchers.reserveTimeout
  split
  · rename_i hnone
    exact h.sameRegistry .ended ⟨rfl, rfl, rfl, rfl⟩ rfl rfl rfl fun w r hdue hw =>
      (hinv.taken_slot hself.2 hnone hdue rfl (hmem w hw)).elim
  · rename_i entry hslot
    obtain ⟨hlook, halive⟩ := slot_eq_some.mp hslot
    split
    · -- the watcher is detached with its slot
      have hout : ∀ s' : State Root Key, s'.detached = Function.update s.detached taken.alive true →
          ∀ r, ¬Due s s' taken.alive r := by
        intro s' hs' r hdue
        have hfree := hdue.detached
        rw [hs', Function.update_self] at hfree
        cases hfree
      refine h.erases (.reserving taken.root configKey) ⟨rfl, rfl, rfl, rfl⟩ hlook rfl (fun w hw => ?_) rfl
        (fun w hw => ?_) fun w r hdue hw => ?_
      · by_cases hwa : w = taken.alive
        · subst hwa
          cases (Function.update_self taken.alive true s.detached).symm.trans hw
        · exact (Function.update_of_ne hwa true s.detached).symm.trans hw
      · rw [← hw, halive]
        exact hout _ rfl taken.root
      · have hwa := (mem_handles_of_thread (hmem w hw) hself.2).2.1
        rw [hwa] at hdue
        exact absurd hdue (hout _ rfl r)
    · rename_i hwedged
      obtain ⟨hcall, hentry⟩ := held_insert ((s.insert taken.root
        { entry with thread := taken.thread, stoppingSince := some (s.since entry) }).setCall c .ended)
        hself.2 hlook halive rfl rfl rfl
      refine h.move .ended ⟨rfl, rfl, rfl, rfl⟩ (fun w hw => hw) (fun w _ _ hdone => .inl hdone)
        (hentry fun hnone => ?_) fun w r hdue hw => hcall w r hdue (hmem w hw)
      obtain ⟨root, alive, thread⟩ := taken
      cases hnone
      simp only [undisturbed, hpc, hslot, Option.all_some, Bool.or_eq_true] at hok
      exact hok.resolve_left hwedged

theorem HandlesHeld.putBack [DecidableEq Key] (h : HandlesHeld s) (hinv : Inv s)
    (hpc : s.call c = .stopTimedOut taken rest) {answer : Bool} (hok : undisturbed s (.go c answer) = true) :
    HandlesHeld ((putBack s taken).setCall c (stopNext rest)) := by
  have hself := hinv.calls c
  rw [hpc] at hself
  have htaken := hself taken (List.mem_cons_self ..)
  have hsplit : ∀ w, w ∈ (s.call c).handles → w ∈ taken.thread.toList ∨ w ∈ (stopNext rest : Call Root Key).handles := by
    intro w hw
    rw [hpc] at hw
    obtain ⟨t, ht, hthread⟩ := List.mem_filterMap.mp hw
    rcases List.mem_cons.mp ht with rfl | ht
    · exact .inl (Option.mem_toList.mpr hthread)
    · rw [handles_stopNext]
      exact .inr (List.mem_filterMap.mpr ⟨t, ht, hthread⟩)
  unfold Watchers.putBack
  split
  · rename_i entry hslot
    obtain ⟨hlook, halive⟩ := slot_eq_some.mp hslot
    have hm : Moved s ((s.insert taken.root { entry with thread := taken.thread }).setCall c (stopNext rest)) c
        (stopNext rest) := ⟨rfl, rfl, rfl, rfl⟩
    obtain ⟨hcall, hentry⟩ := held_insert
      ((s.insert taken.root { entry with thread := taken.thread }).setCall c (stopNext rest)) htaken hlook halive rfl rfl rfl
    refine h.move _ hm (fun w hw => hw) (fun w _ _ hdone => .inl hdone) (hentry fun hnone => ?_) fun w r hdue hw => ?_
    · obtain ⟨root, alive, thread⟩ := taken
      cases hnone
      simpa only [undisturbed, hpc, hslot, Option.all_some] using hok
    · rcases hsplit w hw with hmem | hmem
      · exact hcall w r hdue hmem
      · exact .inr ⟨c, by rw [hm.self]; exact hmem⟩
  · rename_i hnone
    exact h.sameRegistry _ ⟨rfl, rfl, rfl, rfl⟩ rfl rfl rfl fun w r hdue hw =>
      (hsplit w hw).resolve_left fun hmem => hinv.taken_slot htaken hnone hdue rfl hmem

/-- The end of a reservation, and the store of its handle. -/
theorem HandlesHeld.settle [DecidableEq Key] (h : HandlesHeld s) (hinv : Inv s) {answer : Bool}
    (hpc : s.call c = .reserved root ∨ s.call c = .storing root) (hstep : advance s c answer = .next s') : HandlesHeld s' := by
  have hself := hinv.calls c
  have hnone : ∀ w, w ∉ (s.call c).handles := by
    rcases hpc with hpc | hpc
    all_goals
      rw [hpc]
      exact fun w => List.not_mem_nil
  unfold advance at hstep
  rcases hpc with hpc | hpc
  · rw [hpc] at hstep hself
    cases answer with
    | true =>
      cases hstep
      intro w r hspawned hlive hfree hdone
      by_cases hwc : w = c
      · subst hwc
        exact absurd hself (hinv.stored w hdone)
      · have hspawned₀ : s.spawned w = some r := (Function.update_of_ne hwc _ _).symm.trans hspawned
        rcases h w r hspawned₀ hlive hfree hdone with ⟨e, he, hw, hthread⟩ | ⟨c', hmem⟩
        · exact .inl ⟨e, he, hw, hthread⟩
        · have hc : c' ≠ c := by
            rintro rfl
            exact hnone w hmem
          refine .inr ⟨c', ?_⟩
          change w ∈ (Function.update s.call c (.storing root) c').handles
          rwa [Function.update_of_ne hc]
    | false =>
      simp only [Bool.false_eq_true, if_false] at hstep
      split at hstep
      · rename_i entry hfound
        obtain ⟨hlook, halive⟩ := hinv.made_by hfound
        cases hstep
        refine h.erases .ended ⟨rfl, rfl, rfl, rfl⟩ hlook rfl (fun w hw => hw) rfl (fun w hw hdue => ?_)
          fun w _ _ hmem => absurd hmem (hnone w)
        rw [← hw, halive] at hdue
        cases hself.symm.trans hdue.spawned
      · cases hstep
        exact h.sameRegistry .ended ⟨rfl, rfl, rfl, rfl⟩ rfl rfl rfl fun w _ _ hmem => absurd hmem (hnone w)
  · rw [hpc] at hstep hself
    simp only at hstep
    split at hstep
    · rename_i entry hfound
      obtain ⟨hlook, halive⟩ := hinv.made_by hfound
      cases hstep
      have hnew : ∀ r, s.spawned c = some r →
          Held { (s.insert root { entry with thread := some c }).setCall c .ended with
            stored := Function.update s.stored c true } c r := by
        intro r hspawned
        cases hself.symm.trans hspawned
        exact .inl ⟨_, AList.lookup_insert _, halive, rfl⟩
      refine h.move .ended ⟨rfl, rfl, rfl, rfl⟩ (fun w hw => hw) (fun w r hdue hdone => ?_) (fun w r e hdue he hw hthread => ?_)
        fun w _ _ hmem => absurd hmem (hnone w)
      · by_cases hwc : w = c
        · subst hwc
          exact .inr (hnew r hdue.spawned)
        · exact .inl ((Function.update_of_ne hwc true s.stored).symm.trans hdone)
      · by_cases hroot : r = root
        · subst hroot
          cases hlook.symm.trans he
          cases halive.symm.trans hw
          exact hnew r hdue.spawned
        · exact held_other he hw hthread (AList.lookup_insert_ne hroot)
    · cases hstep
      exact h.sameRegistry .ended ⟨rfl, rfl, rfl, rfl⟩ rfl rfl rfl fun w _ _ hmem => absurd hmem (hnone w)

theorem HandlesHeld.advance [DecidableEq Key] (h : HandlesHeld s) (hinv : Inv s) {answer : Bool}
    (hok : undisturbed s (.go c answer) = true) (hstep : Watchers.advance s c answer = .next s') : HandlesHeld s' := by
  have hself := hinv.calls c
  cases hpc : s.call c with
  | ended =>
    unfold Watchers.advance at hstep
    rw [hpc] at hstep
    cases hstep
  | reserving root configKey =>
    unfold Watchers.advance at hstep
    rw [hpc] at hstep
    cases hstep
    exact h.reserve hpc
  | reserveWaiting configKey taken =>
    unfold Watchers.advance at hstep
    rw [hpc] at hstep hself
    cases answer with
    | true =>
      simp only [if_true] at hstep
      split at hstep
      · cases hstep
      · rename_i hdead
        cases hstep
        refine h.sameRegistry (.reserving taken.root configKey) ⟨rfl, rfl, rfl, rfl⟩ rfl rfl rfl fun w r hdue hmem => ?_
        rw [hpc] at hmem
        have hw := (mem_handles_of_thread hmem hself.2).2.1
        exact absurd (hw ▸ hdue.alive) hdead
    | false =>
      cases hstep
      refine h.sameRegistry (.reserveTimedOut configKey taken) ⟨rfl, rfl, rfl, rfl⟩ rfl rfl rfl fun w r _ hmem => ?_
      rwa [hpc] at hmem
  | reserveTimedOut configKey taken =>
    unfold Watchers.advance at hstep
    rw [hpc] at hstep
    cases hstep
    exact h.reserveTimeout hinv hpc hok
  | reserved root => exact h.settle hinv (.inl hpc) hstep
  | storing root => exact h.settle hinv (.inr hpc) hstep
  | stopWaiting pending =>
    unfold Watchers.advance at hstep
    rw [hpc] at hstep hself
    cases pending with
    | nil =>
      cases hstep
      refine h.sameRegistry .ended ⟨rfl, rfl, rfl, rfl⟩ rfl rfl rfl fun w r _ hmem => ?_
      rwa [hpc] at hmem
    | cons taken rest =>
      cases answer with
      | true =>
        simp only [if_true] at hstep
        split at hstep
        · cases hstep
        · rename_i hdead
          cases hstep
          refine h.sameRegistry (.stopReaping taken.root taken.alive rest) ⟨rfl, rfl, rfl, rfl⟩ rfl rfl rfl
            fun w r hdue hmem => ?_
          rw [hpc] at hmem
          obtain ⟨t, ht, hthread⟩ := List.mem_filterMap.mp hmem
          rcases List.mem_cons.mp ht with rfl | ht
          · have hw := ((hself t (List.mem_cons_self ..)).thread w hthread).1
            exact absurd (hw ▸ hdue.alive) hdead
          · exact List.mem_filterMap.mpr ⟨t, ht, hthread⟩
      | false =>
        cases hstep
        refine h.sameRegistry (.stopTimedOut taken rest) ⟨rfl, rfl, rfl, rfl⟩ rfl rfl rfl fun w r _ hmem => ?_
        rwa [hpc] at hmem
  | stopReaping root alive rest =>
    unfold Watchers.advance at hstep
    rw [hpc] at hstep hself
    have hrest : ∀ w, w ∈ (s.call c).handles → w ∈ (stopNext rest : Call Root Key).handles := by
      intro w hmem
      rw [hpc] at hmem
      rwa [handles_stopNext]
    simp only at hstep
    split at hstep
    · rename_i entry hslot
      obtain ⟨hlook, halive⟩ := slot_eq_some.mp hslot
      cases hstep
      refine h.erases _ ⟨rfl, rfl, rfl, rfl⟩ hlook rfl (fun w hw => hw) rfl (fun w hw hdue => ?_)
        fun w _ _ hmem => hrest w hmem
      rw [← hw, halive] at hdue
      cases hself.1.2.symm.trans hdue.alive
    · cases hstep
      exact h.sameRegistry _ ⟨rfl, rfl, rfl, rfl⟩ rfl rfl rfl fun w _ _ hmem => hrest w hmem
  | stopTimedOut taken rest =>
    unfold Watchers.advance at hstep
    rw [hpc] at hstep
    cases hstep
    exact h.putBack hinv hpc hok

/-- A stop takes over the handles of the entries it signals. -/
theorem HandlesHeld.beginStop (h : HandlesHeld s) (hinv : Inv s) (roots : List Root) : HandlesHeld (beginStop s roots) := by
  have hs := signalAll_signals roots s
  have hself : (Watchers.beginStop s roots).call s.calls = stopNext (signalAll s roots).2 := Function.update_self _ _ _
  have hother : ∀ c, c ≠ s.calls → (Watchers.beginStop s roots).call c = s.call c :=
    fun c hc => (Function.update_of_ne hc _ _).trans (congrFun hs.call c)
  intro w r hspawned hlive hfree hdone
  rcases h w r ((congrFun hs.spawned w).symm.trans hspawned) ((congrFun hs.alive w).symm.trans hlive)
    ((congrFun hs.detached w).symm.trans hfree) ((congrFun hs.stored w).symm.trans hdone) with
    ⟨e, he, hw, hthread⟩ | ⟨c, hmem⟩
  · obtain ⟨e', he', halive, hkept⟩ := hs.kept r e he
    rcases hkept w hthread with hthread' | hpending
    · exact .inl ⟨e', he', halive.trans hw, hthread'⟩
    · exact .inr ⟨s.calls, by rw [hself, handles_stopNext]; exact hpending⟩
  · have hc : c ≠ s.calls := by
      rintro rfl
      rw [(hinv.fresh s.calls (Nat.le_refl _)).1] at hmem
      exact List.not_mem_nil hmem
    exact .inr ⟨c, by rw [hother c hc]; exact hmem⟩

variable [DecidableEq Key]

theorem handlesHeld_step {a : Act Root Key} (h : HandlesHeld s) (hinv : Inv s) (hok : undisturbed s a = true)
    (hstep : step s a = .next s') : HandlesHeld s' := by
  cases a with
  | ensure root configKey =>
    cases hstep
    obtain ⟨hended, hunspawned⟩ := hinv.fresh s.calls (Nat.le_refl _)
    intro w r hspawned hlive hfree hdone
    have hwc : w ≠ s.calls := by
      rintro rfl
      cases hunspawned.symm.trans hspawned
    have hlive₀ : s.alive w = true := (Function.update_of_ne hwc _ _).symm.trans hlive
    rcases h w r hspawned hlive₀ hfree hdone with hentry | ⟨c, hmem⟩
    · exact .inl hentry
    · have hc : c ≠ s.calls := by
        rintro rfl
        rw [hended] at hmem
        exact List.not_mem_nil hmem
      refine .inr ⟨c, ?_⟩
      change w ∈ (Function.update s.call s.calls (.reserving root configKey) c).handles
      rwa [Function.update_of_ne hc]
  | stopProject root =>
    cases hstep
    exact h.beginStop hinv [root]
  | stopAll roots =>
    simp only [step] at hstep
    split at hstep
    · cases hstep
      exact h.beginStop hinv roots
    · cases hstep
  | retain =>
    cases hstep
    intro w r hspawned hlive hfree hdone
    rcases h w r hspawned hlive hfree hdone with ⟨e, he, hw, hthread⟩ | hcall
    · have hkeep : s.alive e.alive = true := (congrArg s.alive hw).trans hlive
      refine .inl ⟨e, ?_, hw, hthread⟩
      rw [Table.lookup_deleteRows, he, Option.filter_some, hkeep]
      rfl
    · exact .inr hcall
  | go c answer => exact h.advance hinv hok hstep
  | exit x =>
    simp only [step] at hstep
    split at hstep
    · cases hstep
      intro w r hspawned hlive hfree hdone
      have hne : w ≠ x := by
        rintro rfl
        cases (Function.update_self w false s.alive).symm.trans hlive
      exact h w r hspawned ((Function.update_of_ne hne _ _).symm.trans hlive) hfree hdone
    · cases hstep
  | tick seconds =>
    cases hstep
    exact h

end Handles

section Main

variable [DecidableEq Root] [DecidableEq Key] {s₀ s : State Root Key}

theorem inv_of_steps (h0 : Initial s₀) (hrun : Steps step s₀ s) : Inv s :=
  hrun.invariant (fun _ _ _ h hstep => inv_step h hstep) h0.inv

theorem handlesHeld_of_steps (h0 : Initial s₀) (hrun : Steps (guarded undisturbed step) s₀ s) : Inv s ∧ HandlesHeld s := by
  refine hrun.invariant (P := fun s => Inv s ∧ HandlesHeld s) (fun s a s' h hstep => ?_)
    ⟨h0.inv, fun w root hspawned => ?_⟩
  · obtain ⟨hok, hstep⟩ := guarded_eq_next.mp hstep
    exact ⟨inv_step h.1 hstep, handlesHeld_step h.2 h.1 hok hstep⟩
  · cases (h0.spawned w).symm.trans hspawned

/-- The watcher registry: one watcher for each root and no entry settled by a call it was not made for in every run,
and no live handle lost in every run whose steps are undisturbed. -/
theorem watcher_registry_keeps (h0 : Initial s₀) :
    (Steps step s₀ s → OneWatcher s ∧ ∀ a s', step s a = .next s' → OwnEntryOnly s a s') ∧
      (Steps (guarded undisturbed step) s₀ s → HandlesHeld s) := by
  constructor
  · intro hrun
    have h := inv_of_steps h0 hrun
    exact ⟨h.oneWatcher, fun a s' hstep => h.ownEntryOnly hstep⟩
  · exact fun hrun => (handlesHeld_of_steps h0 hrun).2

end Main

def started : State Nat Nat where
  registry := ∅
  alive := fun _ => false
  shutdown := fun _ => false
  calls := 0
  call := fun _ => .ended
  spawned := fun _ => none
  stored := fun _ => false
  detached := fun _ => false
  now := 0

theorem started_initial : Initial started := ⟨rfl, fun _ => rfl, fun _ => rfl, fun _ => rfl, fun _ => rfl⟩

/-- A watcher for root 7, and two stops of it that overlap. -/
def overlappingStops : List (Act Nat Nat) :=
  [.ensure 7 1, .go 0 true, .go 0 true, .go 0 true, .stopProject 7, .stopProject 7]

/-- The first of the two stops times out and puts the handle back. -/
theorem watcher_registry_keeps_overlapping : ∃ s : State Nat Nat, HandlesHeld s ∧ OneWatcher s ∧
    (s.stored 0 && s.alive 0 && (s.call 2 == .stopWaiting [⟨7, 0, none⟩])) = true := by
  obtain ⟨s, hrun, htest⟩ := steps_of_run (guarded undisturbed step) started
    (overlappingStops ++ [.go 1 false, .go 1 true])
    (fun s => s.stored 0 && s.alive 0 && (s.call 2 == .stopWaiting [⟨7, 0, none⟩])) (by decide)
  have hplain : Steps step started s :=
    hrun.invariant (P := fun s => Steps step started s)
      (fun _ a _ h hstep => .tail a h (guarded_eq_next.mp hstep).2) .refl
  exact ⟨s, (watcher_registry_keeps started_initial).2 hrun, ((watcher_registry_keeps started_initial).1 hplain).1, htest⟩

/-- Then the second one times out too, and drops the handle of a live watcher. -/
theorem overlapping_stops_drop_handle : ∃ s, Initial started ∧ Steps step started s ∧ ¬HandlesHeld s := by
  obtain ⟨s, hrun, htest⟩ := steps_of_run step started
    (overlappingStops ++ [.go 1 false, .go 1 true, .go 2 false, .go 2 true])
    (fun s => s.stored 0 && s.alive 0 && !s.detached 0 && (s.spawned 0 == some 7) &&
      (s.registry.lookup 7).all (fun entry => entry.thread.isNone) && (s.calls == 3) &&
      (List.range 3).all fun c => (s.call c).handles.isEmpty) (by decide)
  simp only [Bool.and_eq_true, beq_iff_eq, Bool.not_eq_true', List.all_eq_true] at htest
  obtain ⟨⟨⟨⟨⟨⟨hstored, halive⟩, hfree⟩, hspawned⟩, hentry⟩, hcalls⟩, hhandles⟩ := htest
  refine ⟨s, started_initial, hrun, fun h => ?_⟩
  rcases h 0 7 hspawned halive hfree hstored with ⟨entry, hlook, -, hthread⟩ | ⟨c, hmem⟩
  · rw [hlook, Option.all_some, hthread] at hentry
    cases hentry
  · rcases Nat.lt_or_ge c 3 with hlt | hge
    · rw [List.isEmpty_iff.mp (hhandles c (List.mem_range.mpr hlt))] at hmem
      exact List.not_mem_nil hmem
    · rw [((inv_of_steps started_initial hrun).fresh c (hcalls ▸ hge)).1] at hmem
      exact List.not_mem_nil hmem

end Watchers
end Mcp
end CodeSage
