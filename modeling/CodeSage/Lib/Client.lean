import Mathlib.Control.Monad.Basic

/-!
# CodeSage.Lib.Client

Programs over a state that stays when they fail. What the state holds of the outside answers as it likes, so a rule says
what a program leaves from one state:

* `Ends x s Q E`: from `s`, `x` returns with `Q` or fails with `E`.
-/

namespace Lib

abbrev Client (σ ε α : Type) := ExceptT ε (StateM σ) α

namespace Client

variable {σ ε ε' α β ι : Type}

/-- The outcome as a value. -/
def attempt (x : Client σ ε α) : Client σ ε' (Except ε α) := fun s => (.ok (x s).1, (x s).2)

/-- A panic in place of a missing value. -/
def orThrow (e : ε) : Option α → Client σ ε α
  | some a => pure a
  | none => throw e

/-- A loop with an accumulator. -/
def fold (f : α → ι → Client σ ε α) : α → List ι → Client σ ε α
  | a, [] => pure a
  | a, x :: xs => do
    let b ← f a x
    fold f b xs

/-- `Q` of the value and the state, or `E` of the failure and the state. -/
def Post (Q : α → σ → Prop) (E : ε → σ → Prop) : Except ε α × σ → Prop
  | (.ok a, t) => Q a t
  | (.error e, t) => E e t

def Ends (x : Client σ ε α) (s : σ) (Q : α → σ → Prop) (E : ε → σ → Prop) : Prop := Post Q E (x s)

namespace Ends

variable {x : Client σ ε α} {s : σ} {Q Q' : α → σ → Prop} {R : β → σ → Prop} {E E' : ε → σ → Prop}

theorem mono (h : Ends x s Q E) (hQ : ∀ a t, Q a t → Q' a t) (hE : ∀ e t, E e t → E' e t) : Ends x s Q' E' := by
  rw [Ends] at h ⊢
  rcases hr : x s with ⟨r, t⟩
  rw [hr] at h
  cases r with
  | ok a => exact hQ a t h
  | error e => exact hE e t h

theorem pure {a : α} (h : Q a s) : Ends (Pure.pure a) s Q E := h

theorem throw {e : ε} (h : E e s) : Ends (throw e : Client σ ε α) s Q E := h

theorem bind {f : α → Client σ ε β} (hx : Ends x s Q E) (hf : ∀ a t, Q a t → Ends (f a) t R E) :
    Ends (x >>= f) s R E := by
  change Post R E ((ExceptT.bindCont f) (x s).1 (x s).2)
  rw [Ends] at hx
  rcases hr : x s with ⟨r, t⟩
  rw [hr] at hx
  cases r with
  | ok a => exact hf a t hx
  | error e => exact hx

theorem get {f : σ → Client σ ε β} (h : Ends (f s) s R E) : Ends (MonadState.get >>= f) s R E := h

theorem modify {g : σ → σ} {f : PUnit → Client σ ε β} (h : Ends (f ⟨⟩) (g s) R E) :
    Ends (MonadState.modifyGet (fun t => (⟨⟩, g t)) >>= f) s R E := h

theorem attempt {f : Except ε α → Client σ ε' β} {E' : ε' → σ → Prop} (hx : Ends x s Q E)
    (hok : ∀ a t, Q a t → Ends (f (.ok a)) t R E') (herror : ∀ e t, E e t → Ends (f (.error e)) t R E') :
    Ends (Client.attempt x >>= f) s R E' := by
  change Post R E' (f (x s).1 (x s).2)
  rw [Ends] at hx
  rcases hr : x s with ⟨r, t⟩
  rw [hr] at hx
  cases r with
  | ok a => exact hok a t hx
  | error e => exact herror e t hx

theorem orThrow {e : ε} {a : α} {o : Option α} {f : α → Client σ ε β} (ho : o = some a) (h : Ends (f a) s R E) :
    Ends (Client.orThrow e o >>= f) s R E := by
  subst ho
  exact h

/-- A loop keeps a relation between the items done, the accumulator and the state. -/
theorem fold {g : α → ι → Client σ ε α} {I : List ι → α → σ → Prop} {xs : List ι} {a : α} (hnil : I [] a s)
    (hstep : ∀ done x rest b t, xs = done ++ x :: rest → I done b t → Ends (g b x) t (fun b' u => I (done ++ [x]) b' u) E) :
    Ends (Client.fold g a xs) s (fun b t => I xs b t) E := by
  have key : ∀ (rest done : List ι) (b : α) (t : σ), xs = done ++ rest → I done b t →
      Ends (Client.fold g b rest) t (fun b' u => I xs b' u) E := by
    intro rest
    induction rest with
    | nil =>
      intro done b t hxs h
      rw [List.append_nil] at hxs
      exact pure (hxs ▸ h)
    | cons x rest ih =>
      intro done b t hxs h
      refine bind (hstep done x rest b t hxs h) fun b' u h' => ?_
      exact ih (done ++ [x]) b' u (by simpa using hxs) h'
  exact key xs [] a s rfl hnil

end Ends

end Client
end Lib
