import CodeSage.Lib.Steps
import Mathlib.Logic.Function.Basic
import Mathlib.Order.Nat

/-!
# CodeSage.Cli.HookFlight

The stamp and the single flight of the git hook (`generate_post_commit_hook_body` in
`crates/cli/src/commands/hooks.rs`), interleaved with commits and edits. Time is the number of commits and edits
so far; a commit is known by its moment and is followed by one fire of the hook, known by the same number. A pass
reads HEAD and the tree at one moment between its start and its end; all passes succeed and no process is killed.

The latest start of each pass and the moment it read at are kept in the state. The digest of a worktree is a
parameter; it may fail.
-/

namespace CodeSage
namespace Cli
namespace HookFlight

open Lib

variable {Tree Digest : Type}

/-- `"$head $digest"` -/
structure Stamp (Digest : Type) where
  head : Nat
  digest : Digest
  deriving DecidableEq

/-- The stamp of a fire, empty when the digest failed, and the moment it was completed. -/
structure Stamped (Digest : Type) where
  stamp : Option (Stamp Digest)
  moment : Nat

inductive Phase (Digest : Type) where
  | absent
  | fired
  /-- `git rev-parse HEAD` has answered. -/
  | headRead (head : Nat)
  /-- before the comparison with the recorded stamp -/
  | stamped (st : Stamped Digest)
  /-- before `mkdir "$lockdir"` -/
  | entering (st : Stamped Digest)
  | won (st : Stamped Digest)
  /-- `index` runs; `saw` once it has read the tree -/
  | indexing (st : Stamped Digest) (saw : Option Nat)
  | indexed (st : Stamped Digest) (saw : Nat)
  /-- `git-index` runs -/
  | gitIndexing (st : Stamped Digest) (indexSaw : Nat) (saw : Option Nat)
  | gitIndexed (st : Stamped Digest) (indexSaw gitSaw : Nat)
  /-- before `hook_exit` -/
  | releasing
  | done

/-- What stands in `hook-state`, with the moments behind it. -/
structure Record (Digest : Type) where
  stamp : Stamp Digest
  moment : Nat
  indexSaw : Nat
  gitSaw : Nat

structure State (Tree Digest : Type) where
  now : Nat
  /-- The moment of the last commit. -/
  head : Nat
  tree : Tree
  proc : Nat → Phase Digest
  lock : Option Nat
  recorded : Option (Record Digest)
  indexStart : Nat
  indexSaw : Nat
  gitStart : Nat
  gitSaw : Nat

def State.setProc (s : State Tree Digest) (p : Nat) (phase : Phase Digest) : State Tree Digest :=
  { s with proc := Function.update s.proc p phase }

inductive Act (Tree : Type) where
  | commit
  | edit (tree : Tree)
  | go (p : Nat)

section Step

variable [DecidableEq Digest] (digest : Nat → Tree → Option Digest)

/-- The comparison with the recorded stamp; an empty stamp never matches. -/
def unchanged (s : State Tree Digest) (st : Stamped Digest) : Bool :=
  st.stamp.isSome && decide (s.recorded.map Record.stamp = st.stamp)

/-- The next command of a fire. -/
def advance (s : State Tree Digest) (p : Nat) : Outcome (State Tree Digest) :=
  match s.proc p with
  | .absent => .disabled
  | .fired => .next (s.setProc p (.headRead s.head))
  | .headRead head => .next (s.setProc p (.stamped ⟨(digest s.head s.tree).map fun d => ⟨head, d⟩, s.now⟩))
  | .stamped st => .next (s.setProc p (if unchanged s st then .done else .entering st))
  | .entering st =>
    match s.lock with
    | none => .next { s.setProc p (.won st) with lock := some p }
    | some _ => .next (s.setProc p .done)
  | .won st => .next { s.setProc p (.indexing st none) with indexStart := s.now }
  | .indexing st none => .next { s.setProc p (.indexing st (some s.now)) with indexSaw := s.now }
  | .indexing st (some saw) => .next (s.setProc p (.indexed st saw))
  | .indexed st saw => .next { s.setProc p (.gitIndexing st saw none) with gitStart := s.now }
  | .gitIndexing st indexSaw none =>
    .next { s.setProc p (.gitIndexing st indexSaw (some s.now)) with gitSaw := s.now }
  | .gitIndexing st indexSaw (some saw) => .next (s.setProc p (.gitIndexed st indexSaw saw))
  | .gitIndexed st indexSaw gitSaw =>
    match st.stamp with
    | some stamp => .next { s.setProc p .releasing with recorded := some ⟨stamp, st.moment, indexSaw, gitSaw⟩ }
    | none => .next (s.setProc p .releasing)
  | .releasing => .next { s.setProc p .done with lock := none }
  | .done => .disabled

def step (s : State Tree Digest) : Act Tree → Outcome (State Tree Digest)
  | .commit => .next { s.setProc (s.now + 1) .fired with now := s.now + 1, head := s.now + 1 }
  | .edit tree => .next { s with now := s.now + 1, tree := tree }
  | .go p => advance digest s p

end Step

/-- No commit yet and no hook running; a stamp may be left of the commit before. -/
structure Initial (s : State Tree Digest) : Prop where
  now : s.now = 0
  head : s.head = 0
  proc : ∀ p, s.proc p = .absent
  lock : s.lock = none
  recorded : ∀ r, s.recorded = some r → r.stamp.head = 0 ∧ r.moment ≤ r.indexSaw ∧ r.moment ≤ r.gitSaw
  starts : s.indexStart = 0 ∧ s.gitStart = 0

/-- No hook process is running. -/
def Quiet (s : State Tree Digest) : Prop := ∀ p, s.proc p = .absent ∨ s.proc p = .done

/-- Both passes have started after the last commit and have read it. -/
structure CoversHead (s : State Tree Digest) : Prop where
  indexStart : s.head ≤ s.indexStart
  gitStart : s.head ≤ s.gitStart
  indexSaw : s.head ≤ s.indexSaw
  gitSaw : s.head ≤ s.gitSaw

/-- The recorded stamp is no newer than what the passes of its run have read. -/
def StampHonest (s : State Tree Digest) : Prop :=
  ∀ r, s.recorded = some r → r.moment ≤ r.indexSaw ∧ r.moment ≤ r.gitSaw

/-- A fire that is turned away by the lock made its commit before the holder began its `index`. -/
def undisturbed (s : State Tree Digest) : Act Tree → Bool
  | .go p =>
    match s.proc p, s.lock with
    | .entering _, some q =>
      match s.proc q with
      | .won _ => true
      | _ => p ≤ s.indexStart
    | _, _ => true
  | _ => true

/-! ## What holds in every run -/

section Facts

/-- Between the `mkdir` of the lock and its release. -/
def Phase.inside : Phase Digest → Bool
  | .won _ => true
  | .indexing _ _ => true
  | .indexed _ _ => true
  | .gitIndexing _ _ _ => true
  | .gitIndexed _ _ _ => true
  | .releasing => true
  | _ => false

/-- The `index` of the holder is still to begin. -/
def Phase.beforeIndex : Phase Digest → Bool
  | .won _ => true
  | _ => false

def Phase.beforeGit : Phase Digest → Bool
  | .won _ => true
  | .indexing _ _ => true
  | .indexed _ _ => true
  | _ => false

/-- A stamp names a commit no older than that of its fire. -/
def Good (s : State Tree Digest) (p : Nat) (st : Stamped Digest) : Prop :=
  st.moment ≤ s.now ∧ ∀ stamp, st.stamp = some stamp → p ≤ stamp.head ∧ stamp.head ≤ st.moment

/-- The pass began after the commit of this fire and after its stamp. -/
def After (start p : Nat) (st : Stamped Digest) : Prop := p ≤ start ∧ st.moment ≤ start

/-- What is true of a fire in each phase. -/
def Fact (s : State Tree Digest) (p : Nat) : Phase Digest → Prop
  | .absent => True
  | .fired => True
  | .headRead head => p ≤ head ∧ head ≤ s.now
  | .stamped st => Good s p st
  | .entering st => Good s p st
  | .won st => Good s p st
  | .indexing st saw => Good s p st ∧ After s.indexStart p st ∧ ∀ x, saw = some x → s.indexStart ≤ x
  | .indexed st saw => Good s p st ∧ After s.indexStart p st ∧ s.indexStart ≤ saw
  | .gitIndexing st indexSaw saw => Good s p st ∧ After s.indexStart p st ∧ s.indexStart ≤ indexSaw ∧
      After s.gitStart p st ∧ s.indexStart ≤ s.gitStart ∧ ∀ x, saw = some x → s.gitStart ≤ x
  | .gitIndexed st indexSaw gitSaw => Good s p st ∧ After s.indexStart p st ∧ s.indexStart ≤ indexSaw ∧
      After s.gitStart p st ∧ s.indexStart ≤ s.gitStart ∧ s.gitStart ≤ gitSaw
  | .releasing => p ≤ s.indexStart ∧ p ≤ s.gitStart ∧ s.indexStart ≤ s.gitStart
  | .done => (p ≤ s.indexStart ∨ ∃ q, s.lock = some q ∧ (s.proc q).beforeIndex = true) ∧
      (p ≤ s.gitStart ∨ ∃ q, s.lock = some q ∧ (s.proc q).beforeGit = true)

/-- A fire that is done is covered, or will be by the holder of the lock. -/
def Covered (s : State Tree Digest) (p : Nat) : Prop := Fact s p .done

structure Inv (s : State Tree Digest) : Prop where
  head : s.head ≤ s.now
  starts : s.indexStart ≤ s.now ∧ s.gitStart ≤ s.now
  fresh : ∀ p, s.proc p = .absent ∨ p ≤ s.head
  headFired : s.head = 0 ∨ s.proc s.head ≠ .absent
  holder : ∀ p, (s.proc p).inside = true ↔ s.lock = some p
  facts : ∀ p, Fact s p (s.proc p)
  recorded : ∀ r, s.recorded = some r → r.stamp.head ≤ s.indexStart ∧ r.stamp.head ≤ s.gitStart
  honest : StampHonest s
  indexSeen : s.indexStart ≤ s.indexSaw ∨ ∃ p st, s.proc p = .indexing st none
  gitSeen : s.gitStart ≤ s.gitSaw ∨ ∃ p st x, s.proc p = .gitIndexing st x none

theorem inv_initial {s : State Tree Digest} (h : Initial s) : Inv s where
  head := by rw [h.head]; exact Nat.zero_le _
  starts := by rw [h.starts.1, h.starts.2]; exact ⟨Nat.zero_le _, Nat.zero_le _⟩
  fresh p := .inl (h.proc p)
  headFired := .inl h.head
  holder p := by rw [h.proc p, h.lock]; exact iff_of_false nofun nofun
  facts p := by rw [h.proc p]; trivial
  recorded r hr := by rw [(h.recorded r hr).1]; exact ⟨Nat.zero_le _, Nat.zero_le _⟩
  honest r hr := (h.recorded r hr).2
  indexSeen := .inl (by rw [h.starts.1]; exact Nat.zero_le _)
  gitSeen := .inl (by rw [h.starts.2]; exact Nat.zero_le _)

/-- A fact about a fire that does not move. -/
theorem Fact.frame {s s' : State Tree Digest} {p : Nat} {phase : Phase Digest} (h : Fact s p phase)
    (hnow : s.now ≤ s'.now)
    (hstarts : phase.inside = true → s'.indexStart = s.indexStart ∧ s'.gitStart = s.gitStart)
    (hdone : phase = .done → Covered s' p) : Fact s' p phase := by
  have hgood : ∀ {st}, Good s p st → Good s' p st := fun hst => ⟨hst.1.trans hnow, hst.2⟩
  cases phase with
  | absent => trivial
  | fired => trivial
  | headRead head => exact ⟨h.1, h.2.trans hnow⟩
  | stamped st => exact hgood h
  | entering st => exact hgood h
  | won st => exact hgood h
  | indexing st saw =>
    rw [Fact, (hstarts rfl).1]
    exact ⟨hgood h.1, h.2⟩
  | indexed st saw =>
    rw [Fact, (hstarts rfl).1]
    exact ⟨hgood h.1, h.2⟩
  | gitIndexing st indexSaw saw =>
    rw [Fact, (hstarts rfl).1, (hstarts rfl).2]
    exact ⟨hgood h.1, h.2⟩
  | gitIndexed st indexSaw gitSaw =>
    rw [Fact, (hstarts rfl).1, (hstarts rfl).2]
    exact ⟨hgood h.1, h.2⟩
  | releasing =>
    rw [Fact, (hstarts rfl).1, (hstarts rfl).2]
    exact h
  | done => exact hdone rfl

end Facts

section Keeps

variable {s : State Tree Digest} {p : Nat} {old phase : Phase Digest}

theorem proc_self : (s.setProc p phase).proc p = phase := Function.update_self _ _ _

theorem proc_other {q : Nat} (h : q ≠ p) : (s.setProc p phase).proc q = s.proc q := Function.update_of_ne h _ _

/-- What a fire changes beside its own phase and the lock. -/
structure Moved (s s' : State Tree Digest) (p : Nat) (phase : Phase Digest) : Prop where
  now : s'.now = s.now
  head : s'.head = s.head
  proc : s'.proc = (s.setProc p phase).proc
  indexStart : s'.indexStart = s.indexStart ∨ s.lock = some p ∧ s'.indexStart = s.now
  gitStart : s'.gitStart = s.gitStart ∨ s.lock = some p ∧ s'.gitStart = s.now

theorem Inv.starts_le (h : Inv s) {s' : State Tree Digest} (hm : Moved s s' p phase) :
    s.indexStart ≤ s'.indexStart ∧ s.gitStart ≤ s'.gitStart := by
  constructor
  · rcases hm.indexStart with heq | ⟨-, heq⟩
    · exact heq.ge
    · exact heq ▸ h.starts.1
  · rcases hm.gitStart with heq | ⟨-, heq⟩
    · exact heq.ge
    · exact heq ▸ h.starts.2

/-- A step of one fire. -/
theorem Inv.change (h : Inv s) {s' : State Tree Digest} (hm : Moved s s' p phase)
    (hold : s.proc p = old) (hpresent : old ≠ .absent) (hphase : phase ≠ .absent)
    (hholder : ∀ q, (s'.proc q).inside = true ↔ s'.lock = some q)
    (hindex : ∀ r, s.lock = some r → (s.proc r).beforeIndex = true →
      s'.lock = some r ∧ (s'.proc r).beforeIndex = true ∨ s'.indexStart = s.now)
    (hgit : ∀ r, s.lock = some r → (s.proc r).beforeGit = true →
      s'.lock = some r ∧ (s'.proc r).beforeGit = true ∨ s'.gitStart = s.now)
    (hfact : Fact s' p phase)
    (hrecorded : ∀ r, s'.recorded = some r → r.stamp.head ≤ s'.indexStart ∧ r.stamp.head ≤ s'.gitStart)
    (hhonest : StampHonest s')
    (hindexSeen : s'.indexStart ≤ s'.indexSaw ∨ ∃ q st, s'.proc q = .indexing st none)
    (hgitSeen : s'.gitStart ≤ s'.gitSaw ∨ ∃ q st x, s'.proc q = .gitIndexing st x none) : Inv s' := by
  have hself : s'.proc p = phase := by rw [hm.proc, proc_self]
  have hother : ∀ {q}, q ≠ p → s'.proc q = s.proc q := fun hq => by rw [hm.proc, proc_other hq]
  have hle := h.starts_le hm
  refine ⟨?_, ?_, fun q => ?_, ?_, hholder, fun q => ?_, hrecorded, hhonest, hindexSeen, hgitSeen⟩
  · rw [hm.head, hm.now]
    exact h.head
  · rw [hm.now]
    constructor
    · rcases hm.indexStart with heq | ⟨-, heq⟩
      · exact heq ▸ h.starts.1
      · exact heq.le
    · rcases hm.gitStart with heq | ⟨-, heq⟩
      · exact heq ▸ h.starts.2
      · exact heq.le
  · rw [hm.head]
    by_cases hq : q = p
    · subst hq
      exact .inr ((h.fresh q).resolve_left (hold ▸ hpresent))
    · rw [hother hq]
      exact h.fresh q
  · rw [hm.head]
    refine h.headFired.imp_right fun hfired => ?_
    by_cases hq : s.head = p
    · rw [hq, hself]
      exact hphase
    · rw [hother hq]
      exact hfired
  · by_cases hq : q = p
    · subst hq
      rw [hself]
      exact hfact
    · rw [hother hq]
      refine (h.facts q).frame hm.now.ge (fun hin => ?_) fun hdone => ?_
      · -- two fires are not inside at once
        have hlock := (h.holder q).mp hin
        have hnot : ¬s.lock = some p := fun hp => hq (Option.some_inj.mp (hlock.symm.trans hp))
        exact ⟨hm.indexStart.resolve_right fun hp => hnot hp.1, hm.gitStart.resolve_right fun hp => hnot hp.1⟩
      · have hcovered := h.facts q
        rw [hdone] at hcovered
        have hnow : q ≤ s.now := ((h.fresh q).resolve_left (by rw [hdone]; exact nofun)).trans h.head
        constructor
        · rcases hcovered.1 with hle' | ⟨r, hr, hbefore⟩
          · exact .inl (hle'.trans hle.1)
          · rcases hindex r hr hbefore with hkept | hstart
            · exact .inr ⟨r, hkept⟩
            · exact .inl (hstart ▸ hnow)
        · rcases hcovered.2 with hle' | ⟨r, hr, hbefore⟩
          · exact .inl (hle'.trans hle.2)
          · rcases hgit r hr hbefore with hkept | hstart
            · exact .inr ⟨r, hkept⟩
            · exact .inl (hstart ▸ hnow)

/-- A step inside or outside of the lock: what is said about its holder stays true. -/
theorem Inv.sameLock (h : Inv s) {s' : State Tree Digest} (hm : Moved s s' p phase) (hlock : s'.lock = s.lock)
    (hold : s.proc p = old) (hinside : phase.inside = old.inside)
    (hindex : old.beforeIndex = true → phase.beforeIndex = true ∨ s'.indexStart = s.now)
    (hgit : old.beforeGit = true → phase.beforeGit = true ∨ s'.gitStart = s.now) :
    (∀ q, (s'.proc q).inside = true ↔ s'.lock = some q) ∧
      (∀ r, s.lock = some r → (s.proc r).beforeIndex = true →
        s'.lock = some r ∧ (s'.proc r).beforeIndex = true ∨ s'.indexStart = s.now) ∧
      ∀ r, s.lock = some r → (s.proc r).beforeGit = true →
        s'.lock = some r ∧ (s'.proc r).beforeGit = true ∨ s'.gitStart = s.now := by
  have hself : s'.proc p = phase := by rw [hm.proc, proc_self]
  have hother : ∀ {q}, q ≠ p → s'.proc q = s.proc q := fun hq => by rw [hm.proc, proc_other hq]
  refine ⟨fun q => ?_, fun r hr hbefore => ?_, fun r hr hbefore => ?_⟩
  · rw [hlock]
    by_cases hq : q = p
    · subst hq
      rw [hself, hinside, ← hold]
      exact h.holder q
    · rw [hother hq]
      exact h.holder q
  · by_cases hrp : r = p
    · subst hrp
      rw [hold] at hbefore
      exact (hindex hbefore).imp_left fun hkept => ⟨hlock.trans hr, by rw [hself]; exact hkept⟩
    · exact .inl ⟨hlock.trans hr, by rw [hother hrp]; exact hbefore⟩
  · by_cases hrp : r = p
    · subst hrp
      rw [hold] at hbefore
      exact (hgit hbefore).imp_left fun hkept => ⟨hlock.trans hr, by rw [hself]; exact hkept⟩
    · exact .inl ⟨hlock.trans hr, by rw [hother hrp]; exact hbefore⟩

/-- A pass that has not read yet goes on while another fire moves, or this one in another phase. -/
theorem Inv.seen (h : Inv s) {s' : State Tree Digest} (hproc : s'.proc = (s.setProc p phase).proc)
    (hindex : s'.indexStart = s.indexStart ∧ s'.indexSaw = s.indexSaw) (hold : s.proc p = old)
    (hnot : ∀ st, old ≠ .indexing st none) :
    s'.indexStart ≤ s'.indexSaw ∨ ∃ q st, s'.proc q = .indexing st none := by
  rw [hindex.1, hindex.2]
  refine h.indexSeen.imp_right ?_
  rintro ⟨q, st, hq⟩
  have hqp : q ≠ p := by
    rintro rfl
    exact hnot st (hold.symm.trans hq)
  exact ⟨q, st, by rw [hproc, proc_other hqp, hq]⟩

theorem Inv.seenGit (h : Inv s) {s' : State Tree Digest} (hproc : s'.proc = (s.setProc p phase).proc)
    (hgit : s'.gitStart = s.gitStart ∧ s'.gitSaw = s.gitSaw) (hold : s.proc p = old)
    (hnot : ∀ st x, old ≠ .gitIndexing st x none) :
    s'.gitStart ≤ s'.gitSaw ∨ ∃ q st x, s'.proc q = .gitIndexing st x none := by
  rw [hgit.1, hgit.2]
  refine h.gitSeen.imp_right ?_
  rintro ⟨q, st, x, hq⟩
  have hqp : q ≠ p := by
    rintro rfl
    exact hnot st x (hold.symm.trans hq)
  exact ⟨q, st, x, by rw [hproc, proc_other hqp, hq]⟩

/-- A step that changes the phase of its fire only. -/
theorem Inv.setProc (h : Inv s) (hold : s.proc p = old) (hpresent : old ≠ .absent) (hphase : phase ≠ .absent)
    (hinside : phase.inside = old.inside) (hindex : old.beforeIndex = true → phase.beforeIndex = true)
    (hgit : old.beforeGit = true → phase.beforeGit = true) (hfact : Fact (s.setProc p phase) p phase)
    (hnot : ∀ st, old ≠ .indexing st none) (hnotGit : ∀ st x, old ≠ .gitIndexing st x none) :
    Inv (s.setProc p phase) := by
  have hm : Moved s (s.setProc p phase) p phase := ⟨rfl, rfl, rfl, .inl rfl, .inl rfl⟩
  obtain ⟨hholder, hindex, hgit⟩ :=
    h.sameLock hm rfl hold hinside (fun hb => .inl (hindex hb)) fun hb => .inl (hgit hb)
  exact h.change hm hold hpresent hphase hholder hindex hgit hfact h.recorded h.honest
    (h.seen rfl ⟨rfl, rfl⟩ hold hnot) (h.seenGit rfl ⟨rfl, rfl⟩ hold hnotGit)

end Keeps

section Steps

variable {s s' : State Tree Digest} {p : Nat}

/-- A fire turned away by the lock is covered by the holder. -/
theorem Inv.turnedAway (h : Inv s) {st : Stamped Digest} (hpc : s.proc p = .entering st) {q : Nat}
    (hlock : s.lock = some q) (hok : undisturbed s (.go p) = true) : Covered (s.setProc p .done) p := by
  have hqp : q ≠ p := by
    rintro rfl
    have hin := (h.holder q).mpr hlock
    rw [hpc] at hin
    cases hin
  have hproc : (s.setProc p .done).proc q = s.proc q := proc_other hqp
  have hin := (h.holder q).mpr hlock
  have hfact := h.facts q
  simp only [undisturbed, hpc, hlock] at hok
  -- the holder has not begun, or began its `index` after this commit
  cases hq : s.proc q with
  | won st' => exact ⟨.inr ⟨q, hlock, by rw [hproc, hq]; rfl⟩, .inr ⟨q, hlock, by rw [hproc, hq]; rfl⟩⟩
  | indexing st' saw =>
    rw [hq] at hok
    exact ⟨.inl (of_decide_eq_true hok), .inr ⟨q, hlock, by rw [hproc, hq]; rfl⟩⟩
  | indexed st' saw =>
    rw [hq] at hok
    exact ⟨.inl (of_decide_eq_true hok), .inr ⟨q, hlock, by rw [hproc, hq]; rfl⟩⟩
  | gitIndexing st' indexSaw saw =>
    rw [hq] at hok hfact
    have hle : p ≤ s.indexStart := of_decide_eq_true hok
    exact ⟨.inl hle, .inl (hle.trans hfact.2.2.2.2.1)⟩
  | gitIndexed st' indexSaw gitSaw =>
    rw [hq] at hok hfact
    have hle : p ≤ s.indexStart := of_decide_eq_true hok
    exact ⟨.inl hle, .inl (hle.trans hfact.2.2.2.2.1)⟩
  | releasing =>
    rw [hq] at hok hfact
    have hle : p ≤ s.indexStart := of_decide_eq_true hok
    exact ⟨.inl hle, .inl (hle.trans hfact.2.2)⟩
  | _ =>
    rw [hq] at hin
    cases hin

/-- A commit, with the fire that follows it. -/
theorem Inv.commit (h : Inv s) :
    Inv { s.setProc (s.now + 1) .fired with now := s.now + 1, head := s.now + 1 } := by
  have hnew : s.proc (s.now + 1) = .absent :=
    (h.fresh (s.now + 1)).resolve_right (Nat.not_le.mpr (Nat.lt_succ_of_le h.head))
  have hother : ∀ {q}, q ≠ s.now + 1 → (s.setProc (s.now + 1) .fired).proc q = s.proc q := proc_other
  have hkept : ∀ {q}, s.proc q ≠ .absent → (s.setProc (s.now + 1) .fired).proc q = s.proc q := by
    intro q hq
    refine hother ?_
    rintro rfl
    exact hq hnew
  have hbefore : ∀ {P : Phase Digest → Bool} {q}, P .absent = false → P (s.proc q) = true →
      P ((s.setProc (s.now + 1) .fired).proc q) = true := by
    intro P q habsent hq
    rw [hkept]
    · exact hq
    · intro hnone
      rw [hnone, habsent] at hq
      cases hq
  refine ⟨Nat.le_refl _, ⟨Nat.le_succ_of_le h.starts.1, Nat.le_succ_of_le h.starts.2⟩, fun q => ?_, .inr ?_,
    fun q => ?_, fun q => ?_, h.recorded, h.honest, ?_, ?_⟩
  · by_cases hq : q = s.now + 1
    · exact .inr hq.le
    · refine (h.fresh q).imp (fun habsent => (hother hq).trans habsent) fun hle => ?_
      exact hle.trans (Nat.le_succ_of_le h.head)
  · rw [proc_self]
    exact nofun
  · by_cases hq : q = s.now + 1
    · subst hq
      have hout := h.holder (s.now + 1)
      rw [hnew] at hout
      exact iff_of_false (by rw [proc_self]; exact nofun) fun hlock => nomatch hout.mpr hlock
    · rw [hother hq]
      exact h.holder q
  · by_cases hq : q = s.now + 1
    · subst hq
      rw [proc_self]
      trivial
    · rw [hother hq]
      refine (h.facts q).frame (Nat.le_succ _) (fun _ => ⟨rfl, rfl⟩) fun hdone => ?_
      have hcovered := h.facts q
      rw [hdone] at hcovered
      exact ⟨hcovered.1.imp_right fun ⟨r, hr, hr'⟩ => ⟨r, hr, hbefore rfl hr'⟩,
        hcovered.2.imp_right fun ⟨r, hr, hr'⟩ => ⟨r, hr, hbefore rfl hr'⟩⟩
  · refine h.indexSeen.imp_right ?_
    rintro ⟨q, st, hq⟩
    exact ⟨q, st, (hkept (by rw [hq]; exact nofun)).trans hq⟩
  · refine h.gitSeen.imp_right ?_
    rintro ⟨q, st, x, hq⟩
    exact ⟨q, st, x, (hkept (by rw [hq]; exact nofun)).trans hq⟩

theorem Inv.edit (h : Inv s) (tree : Tree) : Inv { s with now := s.now + 1, tree := tree } where
  head := Nat.le_succ_of_le h.head
  starts := ⟨Nat.le_succ_of_le h.starts.1, Nat.le_succ_of_le h.starts.2⟩
  fresh := h.fresh
  headFired := h.headFired
  holder := h.holder
  facts q := (h.facts q).frame (Nat.le_succ _) (fun _ => ⟨rfl, rfl⟩) fun hdone => by
    have hcovered := h.facts q
    rw [hdone] at hcovered
    exact hcovered
  recorded := h.recorded
  honest := h.honest
  indexSeen := h.indexSeen
  gitSeen := h.gitSeen

variable [DecidableEq Digest] {digest : Nat → Tree → Option Digest}

/-- A fire whose stamp is the recorded one: the run that recorded it began after this commit. -/
theorem Inv.skipped (h : Inv s) {st : Stamped Digest} (hpc : s.proc p = .stamped st) (heq : unchanged s st = true) :
    Covered (s.setProc p .done) p := by
  rw [unchanged, Bool.and_eq_true, decide_eq_true_eq] at heq
  obtain ⟨stamp, hstamp⟩ := Option.isSome_iff_exists.mp heq.1
  obtain ⟨r, hr, hsame⟩ := Option.map_eq_some_iff.mp (heq.2.trans hstamp)
  have hfact := h.facts p
  rw [hpc] at hfact
  have hle := (hfact.2 stamp hstamp).1
  rw [← hsame] at hle
  obtain ⟨hindex, hgit⟩ := h.recorded r hr
  exact ⟨.inl (hle.trans hindex), .inl (hle.trans hgit)⟩

theorem inv_advance (h : Inv s) (hok : undisturbed s (.go p) = true) (hstep : advance digest s p = .next s') :
    Inv s' := by
  have hfact := h.facts p
  have hhead : s.proc p ≠ .absent → p ≤ s.now := fun hne => ((h.fresh p).resolve_left hne).trans h.head
  have hlock : (s.proc p).inside = true → s.lock = some p := (h.holder p).mp
  unfold advance at hstep
  cases hpc : s.proc p with
  | absent =>
    rw [hpc] at hstep
    cases hstep
  | done =>
    rw [hpc] at hstep
    cases hstep
  | fired =>
    rw [hpc] at hstep hhead
    cases hstep
    have hcommit := (h.fresh p).resolve_left (by rw [hpc]; exact nofun)
    exact h.setProc hpc nofun nofun rfl nofun nofun ⟨hcommit, h.head⟩ nofun nofun
  | headRead head =>
    rw [hpc] at hstep hfact
    cases hstep
    refine h.setProc hpc nofun nofun rfl nofun nofun ⟨Nat.le_refl _, fun stamp hstamp => ?_⟩ nofun nofun
    obtain ⟨d, -, rfl⟩ := Option.map_eq_some_iff.mp hstamp
    exact hfact
  | stamped st =>
    rw [hpc] at hstep hfact
    cases hstep
    split
    · rename_i heq
      exact h.setProc hpc nofun nofun rfl nofun nofun (h.skipped hpc heq) nofun nofun
    · exact h.setProc hpc nofun nofun rfl nofun nofun hfact nofun nofun
  | entering st =>
    rw [hpc] at hstep hfact
    simp only at hstep
    split at hstep
    · rename_i hfree
      cases hstep
      have hunlocked : ∀ r, ¬s.lock = some r := fun r hr => by cases hfree.symm.trans hr
      have hm : Moved s { s.setProc p (.won st) with lock := some p } p (.won st) :=
        ⟨rfl, rfl, rfl, .inl rfl, .inl rfl⟩
      refine h.change hm hpc nofun nofun (fun q => ?_)
        (fun r hr => absurd hr (hunlocked r)) (fun r hr => absurd hr (hunlocked r)) hfact h.recorded h.honest
        (h.seen rfl ⟨rfl, rfl⟩ hpc nofun) (h.seenGit rfl ⟨rfl, rfl⟩ hpc nofun)
      by_cases hq : q = p
      · subst hq
        exact iff_of_true (congrArg Phase.inside proc_self) rfl
      · have hout : ¬(s.proc q).inside = true := fun hin => hunlocked q ((h.holder q).mp hin)
        refine iff_of_false (fun hin => hout ?_) fun heq => hq (Option.some_inj.mp heq).symm
        exact (congrArg Phase.inside (proc_other hq)).symm.trans hin
    · rename_i q hheld
      cases hstep
      exact h.setProc hpc nofun nofun rfl nofun nofun (h.turnedAway hpc hheld hok) nofun nofun
  | won st =>
    rw [hpc] at hstep hfact hhead hlock
    cases hstep
    have hm : Moved s { s.setProc p (.indexing st none) with indexStart := s.now } p (.indexing st none) :=
      ⟨rfl, rfl, rfl, .inr ⟨hlock rfl, rfl⟩, .inl rfl⟩
    obtain ⟨hholder, hindex, hgit⟩ := h.sameLock hm rfl hpc rfl (fun _ => .inr rfl) fun _ => .inl rfl
    refine h.change hm hpc nofun nofun hholder hindex hgit ⟨hfact, ⟨hhead nofun, hfact.1⟩, nofun⟩
      (fun r hr => ⟨(h.recorded r hr).1.trans h.starts.1, (h.recorded r hr).2⟩) h.honest (.inr ⟨p, st, proc_self⟩)
      (h.seenGit rfl ⟨rfl, rfl⟩ hpc nofun)
  | indexing st saw =>
    rw [hpc] at hstep hfact hlock
    cases saw with
    | some x =>
      cases hstep
      exact h.setProc hpc nofun nofun rfl nofun (fun _ => rfl) ⟨hfact.1, hfact.2.1, hfact.2.2 x rfl⟩ nofun nofun
    | none =>
      cases hstep
      have hm : Moved s { s.setProc p (.indexing st (some s.now)) with indexSaw := s.now } p
          (.indexing st (some s.now)) := ⟨rfl, rfl, rfl, .inl rfl, .inl rfl⟩
      obtain ⟨hholder, hindex, hgit⟩ := h.sameLock hm rfl hpc rfl nofun fun _ => .inl rfl
      refine h.change hm hpc nofun nofun hholder hindex hgit ⟨hfact.1, hfact.2.1, ?_⟩ h.recorded h.honest
        (.inl h.starts.1) (h.seenGit rfl ⟨rfl, rfl⟩ hpc nofun)
      rintro x ⟨⟩
      exact h.starts.1
  | indexed st saw =>
    rw [hpc] at hstep hfact hhead hlock
    cases hstep
    have hm : Moved s { s.setProc p (.gitIndexing st saw none) with gitStart := s.now } p
        (.gitIndexing st saw none) := ⟨rfl, rfl, rfl, .inl rfl, .inr ⟨hlock rfl, rfl⟩⟩
    obtain ⟨hholder, hindex, hgit⟩ := h.sameLock hm rfl hpc rfl nofun fun _ => .inr rfl
    refine h.change hm hpc nofun nofun hholder hindex hgit
      ⟨hfact.1, hfact.2.1, hfact.2.2, ⟨hhead nofun, hfact.1.1⟩, h.starts.1, nofun⟩
      (fun r hr => ⟨(h.recorded r hr).1, (h.recorded r hr).2.trans h.starts.2⟩) h.honest
      (h.seen rfl ⟨rfl, rfl⟩ hpc nofun) (.inr ⟨p, st, saw, proc_self⟩)
  | gitIndexing st indexSaw saw =>
    rw [hpc] at hstep hfact hlock
    obtain ⟨hgood, hindexAfter, hindexSaw, hgitAfter, hle, hsaw⟩ := hfact
    cases saw with
    | some x =>
      cases hstep
      exact h.setProc hpc nofun nofun rfl nofun nofun ⟨hgood, hindexAfter, hindexSaw, hgitAfter, hle, hsaw x rfl⟩
        nofun nofun
    | none =>
      cases hstep
      have hm : Moved s { s.setProc p (.gitIndexing st indexSaw (some s.now)) with gitSaw := s.now } p
          (.gitIndexing st indexSaw (some s.now)) := ⟨rfl, rfl, rfl, .inl rfl, .inl rfl⟩
      obtain ⟨hholder, hindex, hgit⟩ := h.sameLock hm rfl hpc rfl nofun nofun
      refine h.change hm hpc nofun nofun hholder hindex hgit ⟨hgood, hindexAfter, hindexSaw, hgitAfter, hle, ?_⟩
        h.recorded h.honest (h.seen rfl ⟨rfl, rfl⟩ hpc nofun) (.inl h.starts.2)
      rintro x ⟨⟩
      exact h.starts.2
  | gitIndexed st indexSaw gitSaw =>
    rw [hpc] at hstep hfact
    obtain ⟨hgood, hindexAfter, hindexSaw, hgitAfter, hle, hsaw⟩ := hfact
    simp only at hstep
    split at hstep
    · rename_i stamp hstamp
      cases hstep
      have hm : Moved s { s.setProc p .releasing with recorded := some ⟨stamp, st.moment, indexSaw, gitSaw⟩ } p
          .releasing := ⟨rfl, rfl, rfl, .inl rfl, .inl rfl⟩
      obtain ⟨hholder, hindex, hgit⟩ := h.sameLock hm rfl hpc rfl nofun nofun
      have hold := (hgood.2 stamp hstamp).2
      refine h.change hm hpc nofun nofun hholder hindex hgit ⟨hindexAfter.1, hgitAfter.1, hle⟩ ?_ ?_
        (h.seen rfl ⟨rfl, rfl⟩ hpc nofun) (h.seenGit rfl ⟨rfl, rfl⟩ hpc nofun)
      · rintro r ⟨⟩
        exact ⟨hold.trans hindexAfter.2, hold.trans hgitAfter.2⟩
      · rintro r ⟨⟩
        exact ⟨hindexAfter.2.trans hindexSaw, hgitAfter.2.trans hsaw⟩
    · cases hstep
      exact h.setProc hpc nofun nofun rfl nofun nofun ⟨hindexAfter.1, hgitAfter.1, hle⟩ nofun nofun
  | releasing =>
    rw [hpc] at hstep hfact hlock
    cases hstep
    have hholder : ∀ r, s.lock = some r → r = p := fun r hr => Option.some_inj.mp (hr.symm.trans (hlock rfl))
    have hm : Moved s { s.setProc p .done with lock := none } p .done := ⟨rfl, rfl, rfl, .inl rfl, .inl rfl⟩
    refine h.change hm hpc nofun nofun (fun q => ?_)
      (fun r hr hbefore => ?_) (fun r hr hbefore => ?_) ⟨.inl hfact.1, .inl hfact.2.1⟩ h.recorded h.honest
      (h.seen rfl ⟨rfl, rfl⟩ hpc nofun) (h.seenGit rfl ⟨rfl, rfl⟩ hpc nofun)
    · refine iff_of_false (fun hin => ?_) nofun
      by_cases hq : q = p
      · subst hq
        cases (congrArg Phase.inside proc_self).symm.trans hin
      · exact hq (hholder q ((h.holder q).mp ((congrArg Phase.inside (proc_other hq)).symm.trans hin)))
    · rw [hholder r hr, hpc] at hbefore
      cases hbefore
    · rw [hholder r hr, hpc] at hbefore
      cases hbefore

theorem inv_step {a : Act Tree} (h : Inv s) (hstep : guarded undisturbed (step digest) s a = .next s') : Inv s' := by
  obtain ⟨hok, hstep⟩ := guarded_eq_next.mp hstep
  cases a with
  | commit =>
    cases hstep
    exact h.commit
  | edit tree =>
    cases hstep
    exact h.edit tree
  | go p => exact inv_advance h hok hstep

end Steps

section Runs

theorem Inv.covers {s : State Tree Digest} (h : Inv s) (hquiet : Quiet s) : CoversHead s := by
  have hfree : ∀ q, ¬s.lock = some q := by
    intro q hq
    have hin := (h.holder q).mpr hq
    rcases hquiet q with habsent | hdone
    · rw [habsent] at hin
      cases hin
    · rw [hdone] at hin
      cases hin
  have hstarts : s.head ≤ s.indexStart ∧ s.head ≤ s.gitStart := by
    rcases h.headFired with hzero | hfired
    · rw [hzero]
      exact ⟨Nat.zero_le _, Nat.zero_le _⟩
    · have hcovered := h.facts s.head
      rw [(hquiet s.head).resolve_left hfired] at hcovered
      exact ⟨hcovered.1.resolve_right fun ⟨q, hq, _⟩ => hfree q hq,
        hcovered.2.resolve_right fun ⟨q, hq, _⟩ => hfree q hq⟩
  have hindex : s.indexStart ≤ s.indexSaw := by
    refine h.indexSeen.resolve_right ?_
    rintro ⟨p, st, hp⟩
    rcases hquiet p with hq | hq <;> cases hp.symm.trans hq
  have hgit : s.gitStart ≤ s.gitSaw := by
    refine h.gitSeen.resolve_right ?_
    rintro ⟨p, st, x, hp⟩
    rcases hquiet p with hq | hq <;> cases hp.symm.trans hq
  exact ⟨hstarts.1, hstarts.2, hstarts.1.trans hindex, hstarts.2.trans hgit⟩

/-- In every run in which each fire turned away made its commit before the holder of the lock began its `index`:
whenever no hook is running the last commit is covered, and no recorded stamp is newer than what was read. -/
theorem hook_covers_every_commit [DecidableEq Digest] {digest : Nat → Tree → Option Digest}
    {s₀ s : State Tree Digest} (h₀ : Initial s₀) (h : Steps (guarded undisturbed (step digest)) s₀ s) :
    (Quiet s → CoversHead s) ∧ StampHonest s := by
  have hinv : Inv s := h.invariant (fun s a s' hinv hstep => inv_step hinv hstep) (inv_initial h₀)
  exact ⟨hinv.covers, hinv.honest⟩

end Runs

section Frame

variable [DecidableEq Digest] {digest : Nat → Tree → Option Digest} {s s' : State Tree Digest}

/-- A step of a fire changes the phase of no other fire. -/
theorem advance_frame {p : Nat} (h : advance digest s p = .next s') :
    s.proc p ≠ .absent ∧ s'.now = s.now ∧ ∀ q, q ≠ p → s'.proc q = s.proc q := by
  have hother : ∀ {phase : Phase Digest} {q}, q ≠ p → (s.setProc p phase).proc q = s.proc q := proc_other
  unfold advance at h
  split at h
  · cases h
  all_goals rename_i hpc; refine ⟨by rw [hpc]; exact nofun, ?_⟩
  case h_5 | h_12 => split at h <;> cases h <;> exact ⟨rfl, fun q => hother⟩
  all_goals cases h
  all_goals exact ⟨rfl, fun q => hother⟩

/-- There are no fires but those of the commits made. -/
theorem absent_later {s₀ : State Tree Digest} (h₀ : Initial s₀) (h : Steps (step digest) s₀ s) :
    ∀ p, s.now < p → s.proc p = .absent := by
  refine h.invariant (P := fun s => ∀ p, s.now < p → s.proc p = .absent) (fun s a s' hinv hstep => ?_)
    fun p _ => h₀.proc p
  intro p hp
  cases a with
  | commit =>
    cases hstep
    exact (proc_other (Nat.ne_of_gt hp)).trans (hinv p (Nat.lt_of_succ_lt hp))
  | edit tree =>
    cases hstep
    exact hinv p (Nat.lt_of_succ_lt hp)
  | go q =>
    obtain ⟨hpresent, hnow, hother⟩ := advance_frame hstep
    rw [hnow] at hp
    have hne : p ≠ q := by
      rintro rfl
      exact hpresent (hinv p hp)
    rw [hother p hne]
    exact hinv p hp

end Frame

section Traces

/-- Nothing indexed yet; every tree has the same digest. -/
def fresh : State Unit Unit where
  now := 0
  head := 0
  tree := ()
  proc := fun _ => .absent
  lock := none
  recorded := none
  indexStart := 0
  indexSaw := 0
  gitStart := 0
  gitSaw := 0

theorem initial_fresh : Initial fresh := ⟨rfl, rfl, fun _ => rfl, rfl, nofun, rfl, rfl⟩

def Phase.isQuiet {Digest : Type} : Phase Digest → Bool
  | .absent => true
  | .done => true
  | _ => false

theorem Phase.eq_of_isQuiet {Digest : Type} {phase : Phase Digest} (h : phase.isQuiet = true) :
    phase = .absent ∨ phase = .done := by
  cases phase <;> first | exact .inl rfl | exact .inr rfl | cases h

/-- The hook of commit `p` up to the read of its `git-index`, and its last three steps. -/
def indexes (p : Nat) : List (Act Unit) := List.replicate 9 (.go p)
def finishes (p : Nat) : List (Act Unit) := List.replicate 3 (.go p)

/-- Two commits in a row: the second one is made before the first hook runs `index` and is turned away. -/
theorem hook_covers_every_commit_early : ∃ s, Steps (guarded undisturbed (step fun _ _ => some ())) fresh s ∧
    s.head = 2 ∧ s.indexStart = 2 ∧ (Quiet s → CoversHead s) ∧ StampHonest s := by
  obtain ⟨s, hsteps, htest⟩ := steps_of_run (guarded undisturbed (step fun _ _ => some ())) fresh
    (.commit :: List.replicate 4 (.go 1) ++ .commit :: List.replicate 4 (.go 2) ++ List.replicate 5 (.go 1) ++ finishes 1)
    (fun s => s.head = 2 && s.indexStart = 2) (by decide)
  simp only [Bool.and_eq_true, decide_eq_true_eq] at htest
  exact ⟨s, hsteps, htest.1, htest.2, hook_covers_every_commit initial_fresh hsteps⟩

/-- A commit while the passes of the hook before are running: its own hook is turned away, and when all is quiet
neither pass has started since. -/
theorem commit_during_passes_lost : Initial fresh ∧
    ∃ s, Steps (step fun _ _ => some ()) fresh s ∧ Quiet s ∧ s.indexStart < s.head ∧ s.gitStart < s.head := by
  refine ⟨initial_fresh, ?_⟩
  obtain ⟨s, hsteps, htest⟩ := steps_of_run (step fun _ _ => some ()) fresh
    (.commit :: indexes 1 ++ .commit :: List.replicate 4 (.go 2) ++ finishes 1)
    (fun s => s.now = 2 && s.head = 2 && s.indexStart = 1 && s.gitStart = 1 &&
      (List.range 3).all fun p => (s.proc p).isQuiet) (by decide)
  simp only [Bool.and_eq_true, decide_eq_true_eq, List.all_eq_true, List.mem_range] at htest
  obtain ⟨⟨⟨⟨hnow, hhead⟩, hindex⟩, hgit⟩, hquiet⟩ := htest
  refine ⟨s, hsteps, fun p => ?_, by rw [hindex, hhead]; decide, by rw [hgit, hhead]; decide⟩
  by_cases hp : p < 3
  · exact Phase.eq_of_isQuiet (hquiet p hp)
  · exact .inl (absent_later initial_fresh hsteps p (by rw [hnow]; exact Nat.not_lt.mp hp))

end Traces

end HookFlight
end Cli
end CodeSage
