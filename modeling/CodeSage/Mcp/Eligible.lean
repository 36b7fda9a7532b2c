import CodeSage.Mcp.Books

/-!
# CodeSage.Mcp.Eligible

What `State::eligible` picks, in terms of the queue: the earliest waiting entry of the lane whose
project is not the one served last, or, when every waiting entry belongs to that project, the
earliest of them.

`Waiting` is the source's closure `eligible` for a queue in good order (`Books`) whose controls
are alive; `Pick` is the rule; `eligible_iff` says that the function follows it.
-/

namespace CodeSage
namespace Mcp

open Protocol

/-- The entry waits in lane `c`, and its project may run one more. -/
def Waiting (l : WorkLimits) (st : State) (phases : Nat → Phase) (c : WorkClass) (e : Pending) :
    Prop :=
  e.cls = c ∧ st.runningIn e.project c < (l.lane c).runningPerProject ∧ phases e.phase = .pending

/-- The rule by which an entry is preferred to the others that wait. -/
structure Best (l : WorkLimits) (st : State) (phases : Nat → Phase) (c : WorkClass) (e : Pending) :
    Prop where
  rotates : st.lastProject c = some e.project →
    ∀ e' ∈ st.queued, Waiting l st phases c e' → e'.project = e.project
  earliest : ∀ e' ∈ st.queued, Waiting l st phases c e' →
    st.lastProject c ≠ some e'.project ∨ st.lastProject c = some e.project → e.id ≤ e'.id

structure Pick (l : WorkLimits) (st : State) (phases : Nat → Phase) (c : WorkClass) (e : Pending) :
    Prop where
  mem : e ∈ st.queued
  lane : st.runningCount c < (l.lane c).running
  waiting : Waiting l st phases c e
  best : Best l st phases c e

section

variable {l : WorkLimits} {st : State} {leases : List RequestLease} {phases : Nat → Phase}
  {alive : Nat → Bool} {c : WorkClass}

/-- Stopping phases leaves fewer entries to be preferred to. -/
theorem Best.mono {phases' : Nat → Phase} {e : Pending} (h : Best l st phases c e)
    (hp : ∀ n, phases' n = .pending → phases n = .pending) : Best l st phases' c e := by
  have hw : ∀ e', Waiting l st phases' c e' → Waiting l st phases c e' :=
    fun e' he => ⟨he.1, he.2.1, hp _ he.2.2⟩
  exact ⟨fun hl e' he' hw' => h.rotates hl e' he' (hw e' hw'),
    fun e' he' hw' => h.earliest e' he' (hw e' hw')⟩

theorem Pick.unique {e e' : Pending} (h : Pick l st phases c e) (h' : Pick l st phases c e') :
    e.id = e'.id := by
  by_cases hl : st.lastProject c = some e.project
  · have hp : e'.project = e.project := h.best.rotates hl e' h'.mem h'.waiting
    have h1 := h.best.earliest e' h'.mem h'.waiting (.inr hl)
    have h2 := h'.best.earliest e h.mem h.waiting (.inr (by rw [hp]; exact hl))
    omega
  · by_cases hl' : st.lastProject c = some e'.project
    · have hp : e.project = e'.project := h'.best.rotates hl' e h.mem h.waiting
      exact absurd (by rw [hp]; exact hl') hl
    · have h1 := h.best.earliest e' h'.mem h'.waiting (.inl hl')
      have h2 := h'.best.earliest e h.mem h.waiting (.inl hl)
      omega

theorem ready_iff (h : Books l st leases) {e : Pending} (he : e ∈ st.queued)
    (ha : alive e.control = true) :
    st.ready phases alive c (l.lane c) e = true ↔ Waiting l st phases c e := by
  have hlk := h.queued_lookup he
  simp only [State.ready, hlk, ha, Bool.and_true, Bool.and_eq_true, decide_eq_true_eq, Waiting,
    h.running_eq, and_assoc]

/-- In a queue sorted by number, the first entry that passes a test has the least number. -/
theorem find?_earliest {q : Pending → Bool} {xs : List Pending} {e : Pending}
    (hs : xs.Pairwise fun a b => a.id < b.id) (h : xs.find? q = some e) :
    ∀ e' ∈ xs, q e' = true → e.id ≤ e'.id := by
  obtain ⟨_, pre, post, hl, hpre⟩ := List.find?_eq_some_iff_append.mp h
  intro e' he' hq
  rw [hl, List.pairwise_append, List.pairwise_cons] at hs
  rw [hl] at he'
  rcases List.mem_append.mp he' with hm | hm
  · have := hpre e' hm
    simp [hq] at this
  · rcases List.mem_cons.mp hm with rfl | hm
    · exact Nat.le_refl _
    · exact Nat.le_of_lt (hs.2.1.1 e' hm)

theorem Books.found (h : Books l st leases) {e : Pending} (he : e ∈ st.queued) :
    st.queued.find? (fun e' => e'.id = e.id) = some e := by
  cases hf : st.queued.find? fun e' => e'.id = e.id with
  | none =>
    have := List.find?_eq_none.mp hf e he
    simp at this
  | some e' =>
    have hid : e'.id = e.id := by simpa using List.find?_some hf
    by_contra hne
    obtain ⟨pre, post, hl, _, _, hpre⟩ := Lib.find?_split hf
    have hs := h.queued_sorted
    rw [hl, List.pairwise_append, List.pairwise_cons] at hs
    rw [hl] at he
    rcases List.mem_append.mp he with hm | hm
    · have := hpre e hm
      simp at this
    · rcases List.mem_cons.mp hm with rfl | hm
      · exact hne rfl
      · have := hs.2.1.1 e hm
        omega

theorem Pick.admissible (h : Books l st leases) {e : Pending} (hp : Pick l st phases c e) :
    Admissible l st c e :=
  ⟨h.found hp.mem, hp.waiting.1, hp.lane, by rw [h.running_eq]; exact hp.waiting.2.1⟩

theorem eligible_some (h : Books l st leases) (ha : ∀ e ∈ st.queued, alive e.control = true)
    {id : Nat} (he : st.eligible phases alive c (l.lane c) = some id) :
    ∃ e, Pick l st phases c e ∧ e.id = id := by
  have hready : ∀ e ∈ st.queued, (st.ready phases alive c (l.lane c) e = true ↔
      Waiting l st phases c e) := fun e he => ready_iff h he (ha e he)
  simp only [State.eligible] at he
  split at he
  · cases he
  rename_i hlane
  obtain ⟨e, hor, rfl⟩ := Option.map_eq_some_iff.mp he
  cases hfind : (st.queued.filter (st.ready phases alive c (l.lane c))).find?
      fun e => st.lastProject c ≠ some e.project with
  | some e₁ =>
    rw [hfind, Option.some_or, Option.some.injEq] at hor
    subst hor
    have hlast : st.lastProject c ≠ some e₁.project := by simpa using List.find?_some hfind
    obtain ⟨hmem, hr⟩ := List.mem_filter.mp (List.mem_of_find?_eq_some hfind)
    refine ⟨e₁, ⟨hmem, by omega, (hready e₁ hmem).mp hr, ?_, ?_⟩, rfl⟩
    · exact fun hl => absurd hl hlast
    · intro e' hm' hw' hl'
      refine find?_earliest (h.queued_sorted.sublist List.filter_sublist) hfind e'
        (List.mem_filter.mpr ⟨hm', (hready e' hm').mpr hw'⟩) ?_
      exact decide_eq_true (hl'.resolve_right hlast)
  | none =>
    rw [hfind, Option.none_or] at hor
    have hmem := List.mem_of_find?_eq_some hor
    have hall : ∀ e' ∈ st.queued, Waiting l st phases c e' → st.lastProject c = some e'.project := by
      intro e' hm' hw'
      have := List.find?_eq_none.mp hfind e' (List.mem_filter.mpr ⟨hm', (hready e' hm').mpr hw'⟩)
      simpa using this
    have hw := (hready e hmem).mp (List.find?_some hor)
    refine ⟨e, ⟨hmem, by omega, hw, ?_, ?_⟩, rfl⟩
    · intro hl e' hm' hw'
      have := hall e' hm' hw'
      rw [hl] at this
      exact (Option.some.inj this).symm
    · exact fun e' hm' hw' _ =>
        find?_earliest h.queued_sorted hor e' hm' ((hready e' hm').mpr hw')

/-- The rule always finds somebody when there is room and an entry waits. -/
theorem eligible_isSome (h : Books l st leases) (ha : ∀ e ∈ st.queued, alive e.control = true)
    {e : Pending} (hp : Pick l st phases c e) :
    ∃ id, st.eligible phases alive c (l.lane c) = some id := by
  have hr := (ready_iff h hp.mem (ha e hp.mem)).mpr hp.waiting
  have hlane := hp.lane
  simp only [State.eligible]
  rw [if_neg (by omega)]
  cases hfind : st.queued.find? (st.ready phases alive c (l.lane c)) with
  | none =>
    have := List.find?_eq_none.mp hfind e hp.mem
    exact absurd hr this
  | some e₁ =>
    cases (st.queued.filter (st.ready phases alive c (l.lane c))).find?
        fun e => st.lastProject c ≠ some e.project with
    | none => exact ⟨e₁.id, rfl⟩
    | some e₂ => exact ⟨e₂.id, rfl⟩

theorem eligible_iff (h : Books l st leases) (ha : ∀ e ∈ st.queued, alive e.control = true)
    {id : Nat} :
    st.eligible phases alive c (l.lane c) = some id ↔ ∃ e, Pick l st phases c e ∧ e.id = id := by
  refine ⟨eligible_some h ha, ?_⟩
  rintro ⟨e, hp, rfl⟩
  obtain ⟨id, hid⟩ := eligible_isSome h ha hp
  obtain ⟨e', hp', rfl⟩ := eligible_some h ha hid
  rw [hid, hp.unique hp']

end

end Mcp
end CodeSage
