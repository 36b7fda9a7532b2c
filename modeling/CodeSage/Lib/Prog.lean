import Mathlib.Data.List.Basic

/-!
# CodeSage.Lib.Prog

Programs with a state that stays when they fail, in a world that may fail any call:

* `World σ ε`: the state and the failures still to come, one entry per call.
* `Prog σ ε α`: a program that returns a value or fails; either way it leaves a state.
* `Ends x s Q E`: from `s`, whatever the world does, `x` returns with `Q` or fails with `E`.

A program that was cut off is a failed one, so `E` is also what holds of the states it can be cut off in.
-/

namespace Lib

structure World (σ ε : Type) where
  state : σ
  faults : List (Option ε)

abbrev Prog (σ ε α : Type) := ExceptT ε (StateM (World σ ε)) α

namespace Prog

variable {σ ε α β ι : Type}

/-- The failure of the world at this call, if there is one. -/
def fault : Prog σ ε (Option ε) := fun w => (.ok w.faults.head?.join, { w with faults := w.faults.tail })

def state : Prog σ ε σ := fun w => (.ok w.state, w)

def update (f : σ → σ) : Prog σ ε Unit := fun w => (.ok (), { w with state := f w.state })

/-- A call that may fail and has no effect of its own. -/
def call : Prog σ ε Unit := do
  match ← fault with
  | none => pure ()
  | some e => throw e

def whenever (cond : Bool) (x : Prog σ ε Unit) : Prog σ ε Unit := if cond then x else pure ()

/-- A change that is there for good once the call has gone through. -/
def commit (f : σ → σ) : Prog σ ε Unit := do
  call
  update f

/-- A loop with an accumulator. -/
def fold (f : α → ι → Prog σ ε α) : α → List ι → Prog σ ε α
  | a, [] => pure a
  | a, x :: xs => do
    let b ← f a x
    fold f b xs

def each (f : ι → Prog σ ε Unit) (xs : List ι) : Prog σ ε Unit := fold (fun _ x => f x) () xs

end Prog

variable {ι : Type}

/-- `slice::chunks`: pieces of `n` items, the last one shorter. -/
def slices (n : Nat) : List ι → List (List ι)
  | [] => []
  | x :: xs =>
    let r := List.toChunksAux (n - 1) xs (n - 1)
    (x :: r.1) :: r.2

theorem toChunksAux_flatten (n : Nat) (xs : List ι) (i : Nat) :
    (List.toChunksAux n xs i).1 ++ (List.toChunksAux n xs i).2.flatten = xs := by
  induction xs generalizing i with
  | nil => rfl
  | cons x xs ih =>
    cases i with
    | zero => simpa [List.toChunksAux] using ih n
    | succ i => simpa [List.toChunksAux] using ih i

theorem slices_flatten (n : Nat) (xs : List ι) : (slices n xs).flatten = xs := by
  cases xs with
  | nil => rfl
  | cons x xs => simpa [slices] using toChunksAux_flatten (n - 1) xs (n - 1)

open Prog

variable {σ ε α β : Type}

/-- What a finished program left: `Q` of the value and the state, or `E` of the failure and the state. -/
def Post (Q : α → σ → Prop) (E : ε → σ → Prop) (r : Except ε α × World σ ε) : Prop :=
  match r.1 with
  | .ok a => Q a r.2.state
  | .error e => E e r.2.state

def Ends (x : Prog σ ε α) (s : σ) (Q : α → σ → Prop) (E : ε → σ → Prop) : Prop :=
  ∀ faults, Post Q E (x ⟨s, faults⟩)

namespace Ends

variable {x : Prog σ ε α} {f : α → Prog σ ε β} {s : σ} {Q Q' : α → σ → Prop} {R : β → σ → Prop}
  {E E' : ε → σ → Prop}

theorem mono (h : Ends x s Q E) (hQ : ∀ a s', Q a s' → Q' a s') (hE : ∀ e s', E e s' → E' e s') :
    Ends x s Q' E' := by
  intro faults
  have hpost := h faults
  unfold Post at hpost ⊢
  split at hpost
  · exact hQ _ _ hpost
  · exact hE _ _ hpost

theorem and (h : Ends x s Q E) (h' : Ends x s Q' E') :
    Ends x s (fun a s' => Q a s' ∧ Q' a s') (fun e s' => E e s' ∧ E' e s') := by
  intro faults
  have hpost := h faults
  have hpost' := h' faults
  rcases hr : x ⟨s, faults⟩ with ⟨r, w⟩
  rw [hr] at hpost hpost'
  cases r with
  | ok a => exact ⟨hpost, hpost'⟩
  | error e => exact ⟨hpost, hpost'⟩

theorem returned (h : Ends x s Q E) {faults : List (Option ε)} {a : α} {w : World σ ε}
    (hr : x ⟨s, faults⟩ = (.ok a, w)) : Q a w.state := by
  have hpost := h faults
  rw [hr] at hpost
  exact hpost

theorem pure {a : α} (h : Q a s) : Ends (Pure.pure a) s Q E := fun _ => h

theorem throw {e : ε} (h : E e s) : Ends (throw e : Prog σ ε α) s Q E := fun _ => h

theorem state {g : σ → Prog σ ε β} (h : Ends (g s) s R E) : Ends (Prog.state >>= g) s R E := fun faults => h faults

theorem update {g : σ → σ} {k : Unit → Prog σ ε β} (h : Ends (k ()) (g s) R E) : Ends (Prog.update g >>= k) s R E :=
  fun faults => h faults

theorem lastUpdate {g : σ → σ} {Q : Unit → σ → Prop} (h : Q () (g s)) : Ends (Prog.update g) s Q E := fun _ => h

theorem fault {g : Option ε → Prog σ ε β} (h : ∀ o, Ends (g o) s R E) : Ends (Prog.fault >>= g) s R E :=
  fun _ => h _ _

theorem bind (hx : Ends x s Q E) (hf : ∀ a s', Q a s' → Ends (f a) s' R E) : Ends (x >>= f) s R E := by
  intro faults
  have hpost := hx faults
  change Post R E ((ExceptT.bindCont f) (x ⟨s, faults⟩).1 (x ⟨s, faults⟩).2)
  unfold Post at hpost
  rcases hr : x ⟨s, faults⟩ with ⟨r, w⟩
  rw [hr] at hpost
  cases r with
  | ok a => exact hf a w.state hpost w.faults
  | error e => exact hpost

theorem tryCatch {h : ε → Prog σ ε α} (hx : Ends x s Q E') (hh : ∀ e s', E' e s' → Ends (h e) s' Q E) :
    Ends (tryCatch x h) s Q E := by
  intro faults
  have hpost := hx faults
  change Post Q E ((match (x ⟨s, faults⟩).1 with
    | .ok a => (Pure.pure (Except.ok a) : StateM (World σ ε) (Except ε α))
    | .error e => (h e : StateM (World σ ε) (Except ε α))) (x ⟨s, faults⟩).2)
  unfold Post at hpost
  rcases hr : x ⟨s, faults⟩ with ⟨r, w⟩
  rw [hr] at hpost
  cases r with
  | ok a => exact hpost
  | error e => exact hh e w.state hpost w.faults

theorem call {Q : Unit → σ → Prop} (hok : Q () s) (herr : ∀ e, E e s) : Ends Prog.call s Q E := by
  refine fault fun o => ?_
  cases o with
  | none => exact pure hok
  | some e => exact throw (herr e)

theorem whenever {cond : Bool} {x : Prog σ ε Unit} {Q : Unit → σ → Prop} (htrue : cond = true → Ends x s Q E)
    (hfalse : cond = false → Q () s) : Ends (Prog.whenever cond x) s Q E := by
  cases cond with
  | true => exact htrue rfl
  | false => exact pure (hfalse rfl)

theorem commit {g : σ → σ} {Q : Unit → σ → Prop} (hok : Q () (g s)) (herr : ∀ e, E e s) :
    Ends (Prog.commit g) s Q E := by
  refine bind (call (Q := fun _ s' => s' = s) rfl herr) ?_
  rintro _ _ rfl
  exact lastUpdate hok

/-- A loop keeps a relation between the items done, the accumulator and the state. -/
theorem fold {g : α → ι → Prog σ ε α} {I : List ι → α → σ → Prop} {xs : List ι} {a : α} (hnil : I [] a s)
    (hstep : ∀ done x rest b s', xs = done ++ x :: rest → I done b s' →
      Ends (g b x) s' (fun b' s'' => I (done ++ [x]) b' s'') E) :
    Ends (Prog.fold g a xs) s (fun b s' => I xs b s') E := by
  have key : ∀ (rest done : List ι) (b : α) (s' : σ), xs = done ++ rest → I done b s' →
      Ends (Prog.fold g b rest) s' (fun b' s'' => I xs b' s'') E := by
    intro rest
    induction rest with
    | nil =>
      intro done b s' hxs h
      rw [List.append_nil] at hxs
      exact pure (hxs ▸ h)
    | cons x rest ih =>
      intro done b s' hxs h
      refine bind (hstep done x rest b s' hxs h) fun b' s'' h' => ?_
      exact ih (done ++ [x]) b' s'' (by simpa using hxs) h'
  exact key xs [] a s rfl hnil

/-- A loop keeps a relation between the items done and the state. -/
theorem each {g : ι → Prog σ ε Unit} {I : List ι → σ → Prop} {xs : List ι} (hnil : I [] s)
    (hstep : ∀ done x rest s', xs = done ++ x :: rest → I done s' →
      Ends (g x) s' (fun _ s'' => I (done ++ [x]) s'') E) :
    Ends (Prog.each g xs) s (fun _ s' => I xs s') E :=
  fold (I := fun done _ s' => I done s') hnil fun done x rest _ s' hxs h => hstep done x rest s' hxs h

end Ends

section Keeps

variable {P : σ → Prop} {x : Prog σ ε α} {f : α → Prog σ ε β} {ι : Type}

/-- `P` holds wherever the program ends, also when it is cut off. -/
def Keeps (P : σ → Prop) (x : Prog σ ε α) : Prop := ∀ s, P s → Ends x s (fun _ s' => P s') (fun _ s' => P s')

namespace Keeps

theorem pure {a : α} : Keeps P (Pure.pure a : Prog σ ε α) := fun _ h => Ends.pure h

theorem bind (hx : Keeps P x) (hf : ∀ a, Keeps P (f a)) : Keeps P (x >>= f) :=
  fun s h => Ends.bind (hx s h) fun a s' h' => hf a s' h'

/-- What is read of the state may be used. -/
theorem state {g : σ → Prog σ ε β} (h : ∀ s, P s → Ends (g s) s (fun _ s' => P s') (fun _ s' => P s')) :
    Keeps P (Prog.state >>= g) := fun s hs => Ends.state (h s hs)

theorem commit {g : σ → σ} (h : ∀ s, P s → P (g s)) : Keeps P (Prog.commit g : Prog σ ε Unit) :=
  fun s hs => Ends.commit (h s hs) fun _ => hs

theorem whenever {cond : Bool} {x : Prog σ ε Unit} (h : cond = true → Keeps P x) : Keeps P (Prog.whenever cond x) :=
  fun s hs => Ends.whenever (fun htrue => h htrue s hs) fun _ => hs

theorem fold {g : α → ι → Prog σ ε α} {xs : List ι} (h : ∀ a, ∀ i ∈ xs, Keeps P (g a i)) (a : α) :
    Keeps P (Prog.fold g a xs) :=
  fun s hs => Ends.fold (I := fun _ _ s' => P s') hs fun _ i _ b s' hxs hs' => h b i (by simp [hxs]) s' hs'

theorem holds (h : Keeps P x) {s : σ} (hs : P s) (faults : List (Option ε)) : P (x ⟨s, faults⟩).2.state := by
  have hpost := h s hs faults
  unfold Post at hpost
  split at hpost <;> exact hpost

end Keeps

/-- With no failures to come, the program returns. -/
def Safe (x : Prog σ ε α) : Prop := ∀ s, ∃ a s', x ⟨s, []⟩ = (.ok a, ⟨s', []⟩)

namespace Safe

theorem ends (hx : Safe x) {s : σ} {Q : α → σ → Prop} {E : ε → σ → Prop} (h : Ends x s Q E) :
    ∃ a, Q a (x ⟨s, []⟩).2.state := by
  obtain ⟨a, s', hr⟩ := hx s
  exact ⟨a, by rw [hr]; exact h.returned hr⟩

theorem pure {a : α} : Safe (Pure.pure a : Prog σ ε α) := fun s => ⟨a, s, rfl⟩

theorem bind (hx : Safe x) (hf : ∀ a, Safe (f a)) : Safe (x >>= f) := by
  intro s
  obtain ⟨a, s', hr⟩ := hx s
  obtain ⟨b, s'', hr'⟩ := hf a s'
  refine ⟨b, s'', ?_⟩
  change (ExceptT.bindCont f) (x ⟨s, []⟩).1 (x ⟨s, []⟩).2 = _
  rw [hr]
  exact hr'

theorem state : Safe (Prog.state : Prog σ ε σ) := fun s => ⟨s, s, rfl⟩

theorem commit {g : σ → σ} : Safe (Prog.commit g : Prog σ ε Unit) := fun s => ⟨(), g s, rfl⟩

theorem whenever {cond : Bool} {x : Prog σ ε Unit} (h : Safe x) : Safe (Prog.whenever cond x) := by
  cases cond with
  | true => exact h
  | false => exact pure

theorem fold {g : α → ι → Prog σ ε α} (h : ∀ a i, Safe (g a i)) (xs : List ι) (a : α) : Safe (Prog.fold g a xs) := by
  induction xs generalizing a with
  | nil => exact pure
  | cons i xs ih => exact bind (h a i) ih

end Safe

end Keeps

section Calls

variable {x : Prog σ ε α} {f : α → Prog σ ε β} {w w' : World σ ε} {s s' s'' : σ} {a : α} {b : β} {e : ε} {n m : Nat}

theorem run_bind_ok (h : x w = (.ok a, w')) : (x >>= f) w = f a w' := by
  change (ExceptT.bindCont f) (x w).1 (x w).2 = _
  rw [h]
  rfl

theorem run_bind_error (h : x w = (.error e, w')) : (x >>= f) w = (.error e, w') := by
  change (ExceptT.bindCont f) (x w).1 (x w).2 = _
  rw [h]
  rfl

theorem run_tryCatch_ok {g : ε → Prog σ ε α} (h : x w = (.ok a, w')) : tryCatch x g w = (.ok a, w') := by
  change (match (x w).1 with
    | .ok a => (Pure.pure (Except.ok a) : StateM (World σ ε) (Except ε α))
    | .error e => (g e : StateM (World σ ε) (Except ε α))) (x w).2 = _
  rw [h]
  rfl

theorem run_tryCatch_error {g : ε → Prog σ ε α} (h : x w = (.error e, w')) : tryCatch x g w = g e w' := by
  change (match (x w).1 with
    | .ok a => (Pure.pure (Except.ok a) : StateM (World σ ε) (Except ε α))
    | .error e => (g e : StateM (World σ ε) (Except ε α))) (x w).2 = _
  rw [h]

/-- The first `n` calls all go through. -/
def Clear (n : Nat) (faults : List (Option ε)) : Bool := (faults.take n).all (·.isNone)

theorem clear_add (n m : Nat) (faults : List (Option ε)) :
    Clear (n + m) faults = (Clear n faults && Clear m (faults.drop n)) := by
  rw [Clear, List.take_add, List.all_append]
  rfl

/-- From `s` the program makes `n` calls and returns; it fails only where one of them does. -/
def Calls (x : Prog σ ε α) (s : σ) (n : Nat) (a : α) (s' : σ) : Prop := ∀ faults,
  if Clear n faults then x ⟨s, faults⟩ = (.ok a, ⟨s', faults.drop n⟩) else ∃ e w, x ⟨s, faults⟩ = (.error e, w)

namespace Calls

theorem pure : Calls (Pure.pure a : Prog σ ε α) s 0 a s := fun _ => rfl

theorem bind (hx : Calls x s n a s') (hf : Calls (f a) s' m b s'') : Calls (x >>= f) s (n + m) b s'' := by
  intro faults
  have hrun := hx faults
  rw [clear_add]
  by_cases hn : Clear n faults = true
  · rw [if_pos hn] at hrun
    have hrun' := hf (faults.drop n)
    rw [List.drop_drop] at hrun'
    rw [hn, Bool.true_and, run_bind_ok hrun]
    exact hrun'
  · rw [if_neg hn] at hrun
    obtain ⟨e, w, hrun⟩ := hrun
    rw [if_neg (by simp [hn])]
    exact ⟨e, w, run_bind_error hrun⟩

end Calls

/-- The program decides for itself how many calls it makes and what it returns. -/
def Definite (x : Prog σ ε α) : Prop := ∀ s, ∃ n a s', Calls x s n a s'

namespace Definite

theorem pure : Definite (Pure.pure a : Prog σ ε α) := fun s => ⟨0, a, s, Calls.pure⟩

theorem bind (hx : Definite x) (hf : ∀ a, Definite (f a)) : Definite (x >>= f) := by
  intro s
  obtain ⟨n, a, s', hn⟩ := hx s
  obtain ⟨m, b, s'', hm⟩ := hf a s'
  exact ⟨n + m, b, s'', hn.bind hm⟩

theorem fold {g : α → ι → Prog σ ε α} (h : ∀ a i, Definite (g a i)) (xs : List ι) (a : α) :
    Definite (Prog.fold g a xs) := by
  induction xs generalizing a with
  | nil => exact pure
  | cons i xs ih => exact bind (h a i) ih

end Definite

end Calls

end Lib
