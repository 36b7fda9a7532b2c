import CodeSage.Lib.Prog

/-!
# CodeSage.Lib.Session

A connection to a transactional database and the memory of the process behind it. A rollback takes the
database back and leaves the memory as it is: what the process remembers may outlive what it saw.

A failing statement either undoes only itself or, as the database may decide, the whole transaction
(`Fault`). `savepoint` and `savepointBatch` are the two ways to make a group of statements atomic; `Writes`
is what holds of the group inside, `Ends.savepoint` and `Ends.savepointBatch` what is left around it.
-/

namespace Lib

inductive Fault where
  | statement | transaction
  deriving DecidableEq, Repr

structure Session (σ μ : Type) where
  current : σ
  /-- The database a rollback goes back to; `none` in autocommit mode. -/
  saved : Option σ
  memory : μ
  deriving DecidableEq

namespace Session

variable {σ μ : Type}

def isAutocommit (s : Session σ μ) : Bool := s.saved.isNone

def rollback (s : Session σ μ) : Session σ μ := { s with current := s.saved.getD s.current, saved := none }

/-- Inside a transaction: the one that is open, else a new one. -/
def opened (s : Session σ μ) : Session σ μ := { s with saved := some (s.saved.getD s.current) }

def setCurrent (s : Session σ μ) (t : σ) : Session σ μ := { s with current := t }

def setMemory (s : Session σ μ) (m : μ) : Session σ μ := { s with memory := m }

theorem opened_rollback (s : Session σ μ) : s.opened.rollback = s.rollback := rfl

end Session

abbrev Db (σ μ α : Type) := Prog (Session σ μ) Fault α

namespace Db

open Prog

variable {σ μ α : Type}

/-- A statement reaches the database, or fails there. -/
def send : Db σ μ Unit := do
  match ← fault with
  | none => pure ()
  | some .statement => throw .statement
  | some .transaction =>
    update Session.rollback
    throw .transaction

/-- `f` is `none` where the statement breaks a constraint or names a missing table. -/
def statement (f : σ → Option (α × σ)) : Db σ μ α := do
  send
  let s ← state
  match f s.current with
  | none => throw .statement
  | some (a, t) =>
    update (·.setCurrent t)
    pure a

def query (f : σ → Option α) : Db σ μ α := statement fun t => (f t).map fun a => (a, t)

def execute (f : σ → Option σ) : Db σ μ Unit := statement fun t => (f t).map fun t => ((), t)

/-- `RELEASE`: the outermost savepoint commits. -/
def release (before : Session σ μ) : Db σ μ Unit := do
  send
  update fun s => { s with saved := before.saved }

/-- `ROLLBACK TO` and `RELEASE`, whose own failure is ignored. After a rollback of the whole transaction
there is no savepoint left. -/
def undo (before : Session σ μ) : Fault → Db σ μ α
  | .transaction => throw .transaction
  | .statement => do
    update fun s => { s with current := before.current, saved := before.opened.saved }
    tryCatch (release before) fun _ => pure ()
    throw .statement

/-- The body is undone when it fails; a failing `RELEASE` is reported and leaves the savepoint open. -/
def savepoint (body : Db σ μ α) : Db σ μ α := do
  send
  let before ← state
  update Session.opened
  let a ← tryCatch body (undo before)
  release before
  pure a

/-- One batch of statements with its savepoint inside: a failing `RELEASE` is undone too. -/
def savepointBatch (body : Db σ μ Unit) : Db σ μ Unit := do
  send
  let before ← state
  update Session.opened
  tryCatch (body >>= fun _ => release before) (undo before)

end Db

open Db

variable {σ μ α β ι : Type}

/-- After a statement that failed: the session as it was, or its whole transaction undone. -/
def Refused (s s' : Session σ μ) : Prop := s' = s ∨ s' = s.rollback

/-- After a failed group of statements: also a savepoint that was opened and not released. -/
def Undone (s s' : Session σ μ) : Prop := s' = s ∨ s' = s.opened ∨ s' = s.rollback

theorem Refused.undone {s s' : Session σ μ} (h : Refused s s') : Undone s s' := by
  rcases h with h | h
  · exact .inl h
  · exact .inr (.inr h)

namespace Ends

variable {s : Session σ μ} {f : σ → Option (α × σ)}

theorem send : Ends Db.send s (fun _ s' => s' = s) (fun e s' => s' = if e = .statement then s else s.rollback) := by
  refine fault fun o => ?_
  rcases o with - | - | -
  · exact pure rfl
  · exact throw rfl
  · exact update (throw rfl)

theorem statement : Ends (Db.statement f) s (fun a s' => ∃ t, f s.current = some (a, t) ∧ s' = s.setCurrent t)
    (fun e s' => s' = if e = .statement then s else s.rollback) := by
  refine bind send ?_
  rintro _ _ rfl
  refine state ?_
  split
  · exact throw rfl
  · rename_i a t hf
    exact update (pure ⟨t, hf, rfl⟩)

theorem refused {e : Fault} {s' : Session σ μ} (h : s' = if e = .statement then s else s.rollback) :
    Refused s s' := by
  split at h
  · exact .inl h
  · exact .inr h

theorem query {g : σ → Option α} :
    Ends (Db.query g) s (fun a s' => g s.current = some a ∧ s' = s) (fun _ s' => Refused s s') := by
  refine statement.mono ?_ fun _ _ h => refused h
  rintro a s' ⟨t, hf, rfl⟩
  obtain ⟨a', ha, heq⟩ := Option.map_eq_some_iff.mp hf
  cases heq
  exact ⟨ha, rfl⟩

theorem execute {g : σ → Option σ} :
    Ends (Db.execute g) s (fun _ s' => ∃ t, g s.current = some t ∧ s' = s.setCurrent t)
      (fun _ s' => Refused s s') := by
  refine statement.mono ?_ fun _ _ h => refused h
  rintro a s' ⟨t, hf, rfl⟩
  obtain ⟨t', ht, heq⟩ := Option.map_eq_some_iff.mp hf
  cases heq
  exact ⟨t, ht, rfl⟩

theorem release {before : Session σ μ} : Ends (Db.release before) s
    (fun _ s' => s' = { s with saved := before.saved }) (fun e s' => s' = if e = .statement then s else s.rollback) := by
  refine bind send ?_
  rintro _ _ rfl
  exact lastUpdate rfl

end Ends

/-- Inside a transaction over `b`: the group writes tables with `R`, or fails. -/
def Writes (x : Db σ μ α) (b : σ) (m : μ) (t : σ) (R : α → σ → Prop) : Prop :=
  Ends x ⟨t, some b, m⟩ (fun a s' => ∃ t', s' = ⟨t', some b, m⟩ ∧ R a t')
    (fun e s' => if e = .statement then ∃ t', s' = ⟨t', some b, m⟩ else s' = ⟨b, none, m⟩)

/-- The body went through and its `RELEASE` failed: the savepoint stays open over the body's tables. -/
def Stranded (s : Session σ μ) (R : α → σ → Prop) (s' : Session σ μ) : Prop :=
  ∃ a t, R a t ∧ s' = s.opened.setCurrent t

namespace Writes

variable {x : Db σ μ α} {f : α → Db σ μ β} {b t : σ} {m : μ} {R R' : α → σ → Prop} {Q : β → σ → Prop}

theorem mono (h : Writes x b m t R) (hR : ∀ a t', R a t' → R' a t') : Writes x b m t R' := by
  refine Ends.mono h ?_ fun _ _ he => he
  rintro a s' ⟨t', hs, hr⟩
  exact ⟨t', hs, hR a t' hr⟩

theorem pure {a : α} (h : R a t) : Writes (Pure.pure a) b m t R := Ends.pure ⟨t, rfl, h⟩

theorem bind (hx : Writes x b m t R) (hf : ∀ a t', R a t' → Writes (f a) b m t' Q) :
    Writes (x >>= f) b m t Q := by
  refine Ends.bind hx ?_
  rintro a s' ⟨t', rfl, hr⟩
  exact hf a t' hr

theorem statement {g : σ → Option (α × σ)} (h : ∀ a t', g t = some (a, t') → R a t') :
    Writes (Db.statement g) b m t R := by
  refine Ends.statement.mono ?_ ?_
  · rintro a s' ⟨t', hg, rfl⟩
    exact ⟨t', rfl, h a t' hg⟩
  · intro e s' hs
    split at hs
    · next he => rw [if_pos he]; exact ⟨t, hs⟩
    · next he => rw [if_neg he]; exact hs

theorem query {g : σ → Option α} (h : ∀ a, g t = some a → R a t) : Writes (Db.query g) b m t R := by
  refine statement fun a t' hg => ?_
  obtain ⟨a', ha, heq⟩ := Option.map_eq_some_iff.mp hg
  cases heq
  exact h a ha

theorem execute {g : σ → Option σ} {R : Unit → σ → Prop} (h : ∀ t', g t = some t' → R () t') :
    Writes (Db.execute g) b m t R := by
  refine statement fun a t' hg => ?_
  obtain ⟨t'', ht, heq⟩ := Option.map_eq_some_iff.mp hg
  cases heq
  exact h _ ht

/-- A loop of statements keeps a relation between the items done, the accumulator and the tables. -/
theorem fold {g : α → ι → Db σ μ α} {I : List ι → α → σ → Prop} {xs : List ι} {a : α} (hnil : I [] a t)
    (hstep : ∀ done x c t', I done c t' → Writes (g c x) b m t' fun c' t'' => I (done ++ [x]) c' t'') :
    Writes (Prog.fold g a xs) b m t fun c t' => I xs c t' := by
  refine Ends.fold (I := fun done c (s' : Session σ μ) => ∃ t', s' = ⟨t', some b, m⟩ ∧ I done c t') ⟨t, rfl, hnil⟩ ?_
  rintro done x rest c s' - ⟨t', rfl, hI⟩
  exact hstep done x c t' hI

/-- A loop of statements keeps a relation between the items done and the tables. -/
theorem each {g : ι → Db σ μ Unit} {I : List ι → σ → Prop} {xs : List ι} (hnil : I [] t)
    (hstep : ∀ done x t', I done t' → Writes (g x) b m t' fun _ t'' => I (done ++ [x]) t'') :
    Writes (Prog.each g xs) b m t fun _ t' => I xs t' :=
  fold (I := fun done _ t' => I done t') hnil fun done x _ t' h => hstep done x t' h

end Writes

namespace Ends

variable {s : Session σ μ} {R : α → σ → Prop}

/-- From inside the savepoint, a failure is undone. -/
theorem undo {e : Fault} {s' : Session σ μ}
    (h : if e = .statement then ∃ t, s' = { s with current := t, saved := some (s.saved.getD s.current) }
      else s' = s.rollback) :
    Ends (Db.undo s e : Db σ μ α) s' (fun _ _ => False) (fun _ s'' => Undone s s'') := by
  cases e with
  | transaction => exact throw (.inr (.inr h))
  | statement =>
    obtain ⟨t, rfl⟩ := h
    refine update (s := { s with current := t, saved := some (s.saved.getD s.current) }) ?_
    have hrelease : Ends (MonadExcept.tryCatch (Db.release s) fun _ => Pure.pure ()) s.opened
        (fun _ s' => Undone s s') (fun _ s' => Undone s s') := by
      refine tryCatch (release.mono ?_ fun _ _ h => h) fun e s' hs => ?_
      · rintro - s' rfl
        exact .inl rfl
      · refine pure ?_
        split at hs
        · exact .inr (.inl hs)
        · exact .inr (.inr hs)
    exact bind hrelease fun _ s' hs => throw hs

theorem savepoint {body : Db σ μ α}
    (h : Writes body (s.saved.getD s.current) s.memory s.current R) :
    Ends (Db.savepoint body) s (fun a s' => ∃ t, R a t ∧ s' = s.setCurrent t)
      (fun _ s' => Undone s s' ∨ Stranded s R s') := by
  refine bind (send.mono (fun _ _ h => h) fun _ _ h => .inl (refused h).undone) ?_
  rintro _ r rfl
  refine state (update ?_)
  have hbody : Ends (MonadExcept.tryCatch body (Db.undo r)) r.opened
      (fun a s' => ∃ t, s' = r.opened.setCurrent t ∧ R a t) (fun _ s' => Undone r s' ∨ Stranded r R s') := by
    refine tryCatch h fun e s' he => ?_
    exact (undo he).mono (fun _ _ hfalse => hfalse.elim) fun _ _ hu => .inl hu
  refine bind hbody ?_
  rintro a s' ⟨t, rfl, hr⟩
  refine bind (release.mono (fun _ _ h => h) ?_) fun _ s' hs => pure ⟨t, hr, hs⟩
  intro e s' hs
  split at hs
  · exact .inr ⟨a, t, hr, hs⟩
  · exact .inl (.inr (.inr hs))

theorem savepointBatch {body : Db σ μ Unit} {R : Unit → σ → Prop}
    (h : Writes body (s.saved.getD s.current) s.memory s.current R) :
    Ends (Db.savepointBatch body) s (fun _ s' => ∃ t, R () t ∧ s' = s.setCurrent t) (fun _ s' => Undone s s') := by
  refine bind (send.mono (fun _ _ h => h) fun _ _ h => (refused h).undone) ?_
  rintro _ r rfl
  refine state (update ?_)
  refine tryCatch (bind h ?_) fun e s' he => (undo he).mono (fun _ _ hfalse => hfalse.elim) fun _ _ hu => hu
  rintro _ s' ⟨t, rfl, hr⟩
  refine release.mono ?_ ?_
  · rintro - s' rfl
    exact ⟨t, hr, rfl⟩
  · intro e s' hs
    split at hs
    · next he => rw [if_pos he]; exact ⟨t, hs⟩
    · next he => rw [if_neg he]; exact hs

end Ends

section Refused

variable {body : Db σ μ α} {s s₁ : Session σ μ} {a : α} {n : Nat} {faults : List (Option Fault)} {e : Fault}

theorem run_send_none (h : faults.head?.join = none) : Db.send ⟨s, faults⟩ = (.ok (), ⟨s, faults.tail⟩) := by
  change (match faults.head?.join with
    | none => Pure.pure ()
    | some .statement => throw .statement
    | some .transaction => Prog.update Session.rollback >>= fun _ => throw .transaction : Db σ μ Unit) ⟨s, faults.tail⟩ = _
  rw [h]
  rfl

theorem run_send_some (h : faults.head?.join = some e) :
    Db.send ⟨s, faults⟩ = (.error e, ⟨if e = .statement then s else s.rollback, faults.tail⟩) := by
  change (match faults.head?.join with
    | none => Pure.pure ()
    | some .statement => throw .statement
    | some .transaction => Prog.update Session.rollback >>= fun _ => throw .transaction : Db σ μ Unit) ⟨s, faults.tail⟩ = _
  rw [h]
  cases e <;> rfl

theorem run_release_none {before : Session σ μ} (h : faults.head?.join = none) :
    Db.release before ⟨s, faults⟩ = (.ok (), ⟨{ s with saved := before.saved }, faults.tail⟩) :=
  run_bind_ok (run_send_none h)

theorem run_release_some {before : Session σ μ} (h : faults.head?.join = some e) :
    Db.release before ⟨s, faults⟩ = (.error e, ⟨if e = .statement then s else s.rollback, faults.tail⟩) :=
  run_bind_error (run_send_some h)

theorem clear_one (faults : List (Option Fault)) : Clear 1 faults = faults.head?.join.isNone := by
  rcases faults with - | ⟨o, faults⟩
  · rfl
  · cases o <;> rfl

theorem Calls.send : Calls Db.send s 1 () s := by
  intro faults
  rw [clear_one]
  cases h : faults.head?.join with
  | none => exact (run_send_none h).trans (by rw [List.drop_one])
  | some e => exact ⟨e, _, run_send_some h⟩

theorem Calls.statement {f : σ → Option (α × σ)} {t : σ} (h : f s.current = some (a, t)) :
    Calls (Db.statement f) s 1 a (s.setCurrent t) := by
  refine Calls.bind (m := 0) Calls.send fun faults => ?_
  change (match f s.current with
    | none => throw .statement
    | some (a, t) => Prog.update (·.setCurrent t) >>= fun _ => Pure.pure a : Db σ μ α) ⟨s, faults⟩ = _
  rw [h]
  rfl

theorem Definite.statement {f : σ → Option (α × σ)} (h : ∀ t, (f t).isSome) : Definite (Db.statement f : Db σ μ α) := by
  intro s
  obtain ⟨⟨a, t⟩, hf⟩ := Option.isSome_iff_exists.mp (h s.current)
  exact ⟨1, a, _, Calls.statement hf⟩

theorem Definite.query (f : σ → α) : Definite (Db.query fun t => some (f t) : Db σ μ α) :=
  Definite.statement fun _ => rfl

theorem Definite.execute (f : σ → σ) : Definite (Db.execute fun t => some (f t) : Db σ μ Unit) :=
  Definite.statement fun _ => rfl

/-- The call after the first `n` is the one the database refuses. -/
def RefusedAt (n : Nat) (faults : List (Option Fault)) : Prop :=
  Clear n faults = true ∧ (faults.drop n).head?.join = some .statement

/-- The `RELEASE` is refused: what the body wrote stays in the open savepoint. -/
theorem run_savepoint_refused (hbody : Calls body s.opened n a s₁) (h : RefusedAt (1 + n) faults) :
    ∃ rest, Db.savepoint body ⟨s, faults⟩ = (.error .statement, ⟨s₁, rest⟩) := by
  obtain ⟨hclear, hrefused⟩ := h
  rw [clear_add, Bool.and_eq_true, clear_one, Option.isNone_iff_eq_none] at hclear
  rw [← List.drop_drop] at hrefused
  have hrun := hbody (faults.drop 1)
  rw [if_pos hclear.2] at hrun
  refine ⟨((faults.drop 1).drop n).tail, ?_⟩
  rw [Db.savepoint, run_bind_ok (run_send_none hclear.1), ← List.drop_one]
  change ((MonadExcept.tryCatch body (Db.undo s)) >>= _) ⟨s.opened, faults.drop 1⟩ = _
  rw [run_bind_ok (run_tryCatch_ok hrun)]
  exact run_bind_error (run_release_some hrefused)

/-- Otherwise a savepoint that fails leaves nothing behind. -/
theorem savepoint_released (hbody : Calls body s.opened n a s₁) {R : α → σ → Prop}
    (hwrites : Writes body (s.saved.getD s.current) s.memory s.current R) (h : ¬RefusedAt (1 + n) faults) :
    Post (fun a s' => ∃ t, R a t ∧ s' = s.setCurrent t) (fun _ s' => Undone s s') (Db.savepoint body ⟨s, faults⟩) := by
  cases hhead : faults.head?.join with
  | some e =>
    rw [Db.savepoint, run_bind_error (run_send_some hhead)]
    exact (Ends.refused rfl).undone
  | none =>
    rw [Db.savepoint, run_bind_ok (run_send_none hhead)]
    change Post _ _ (((MonadExcept.tryCatch body (Db.undo s)) >>= _) ⟨s.opened, faults.tail⟩)
    have hrun := hbody faults.tail
    have hpost := hwrites faults.tail
    by_cases hclear : Clear n faults.tail = true
    · rw [if_pos hclear] at hrun
      obtain ⟨t, rfl, hr⟩ := Ends.returned hwrites hrun
      rw [run_bind_ok (run_tryCatch_ok hrun)]
      change Post _ _ ((Db.release s >>= fun _ => Pure.pure a) _)
      cases hlast : (faults.tail.drop n).head?.join with
      | none =>
        rw [run_bind_ok (run_release_none hlast)]
        exact ⟨t, hr, rfl⟩
      | some e =>
        rw [run_bind_error (run_release_some hlast)]
        cases e with
        | transaction => exact .inr (.inr rfl)
        | statement =>
          refine absurd ⟨?_, ?_⟩ h
          · rw [clear_add, clear_one, hhead, List.drop_one]
            exact hclear
          · rw [← List.drop_drop, List.drop_one, hlast]
    · rw [if_neg hclear] at hrun
      obtain ⟨e, w, hrun⟩ := hrun
      change Post _ _ (body ⟨s.opened, faults.tail⟩) at hpost
      rw [hrun] at hpost
      rcases w with ⟨s₂, rest⟩
      have hundo := Ends.undo (α := α) hpost rest
      rcases hres : Db.undo (α := α) s e ⟨s₂, rest⟩ with ⟨r, w⟩
      rw [hres] at hundo
      cases r with
      | ok a => exact hundo.elim
      | error e' =>
        rw [run_bind_error ((run_tryCatch_error hrun).trans hres)]
        exact hundo

end Refused

end Lib
