import Mathlib.Data.List.Basic

/-!
# CodeSage.Lib.Obligation

Programs that leave a trace of what they did. An obligation is opened by some effects and closed by others;
`Obliges` says that a piece of a run keeps a condition on the state for as long as the obligation is open.
It is closed under sequencing (`Obliges.trans`), so a loop needs one lemma per piece.
-/

namespace Lib

/-- A loop whose body leaves effects. -/
def collect {σ ι ε : Type} (step : σ → ι → σ × List ε) : σ → List ι → σ × List ε
  | s, [] => (s, [])
  | s, i :: is => ((collect step (step s i).1 is).1, (step s i).2 ++ (collect step (step s i).1 is).2)

section Obliges

variable {σ ε : Type} {T : σ → Prop} {opens closes : ε → Prop}

/-- From `s` to `s'` with the given effects: an open obligation keeps `T`, unless it is closed on the way. -/
structure Obliges (T : σ → Prop) (opens closes : ε → Prop) (s : σ) (effects : List ε) (s' : σ) : Prop where
  kept : T s → (∀ e ∈ effects, ¬closes e) → T s'
  opened : ∀ before e after, effects = before ++ e :: after → opens e → (∀ d ∈ after, ¬closes d) → T s'

namespace Obliges

theorem refl (s : σ) : Obliges T opens closes s [] s where
  kept h _ := h
  opened before e after h := by simp at h

/-- A silent piece keeps the condition. -/
theorem silent {s s' : σ} (h : T s → T s') : Obliges T opens closes s [] s' where
  kept hs _ := h hs
  opened before e after h := by simp at h

/-- A piece that ends in the condition whatever it does. -/
theorem always {s s' : σ} {effects : List ε} (h : T s') : Obliges T opens closes s effects s' where
  kept _ _ := h
  opened _ _ _ _ _ _ := h

/-- A piece with one effect. -/
theorem single {s s' : σ} {e : ε} (hkept : T s → ¬closes e → T s') (hopened : opens e → T s') :
    Obliges T opens closes s [e] s' where
  kept hs hnot := hkept hs (hnot e (List.mem_singleton_self e))
  opened before e' after h ho _ := by
    obtain ⟨rfl, rfl⟩ : e = e' ∧ after = [] := by
      cases before with
      | nil => simpa [eq_comm] using h
      | cons b before => simp at h
    exact hopened ho

theorem trans {s s' s'' : σ} {xs ys : List ε} (h₁ : Obliges T opens closes s xs s')
    (h₂ : Obliges T opens closes s' ys s'') : Obliges T opens closes s (xs ++ ys) s'' where
  kept hs hnot := h₂.kept (h₁.kept hs fun e he => hnot e (List.mem_append_left _ he))
    fun e he => hnot e (List.mem_append_right _ he)
  opened before e after h ho hnot := by
    rcases List.append_eq_append_iff.mp h with ⟨ws, rfl, hys⟩ | ⟨ws, hxs, hys⟩
    · exact h₂.opened ws e after hys ho hnot
    · cases ws with
      | nil => exact h₂.opened [] e after (by simpa using hys.symm) ho hnot
      | cons w ws =>
        obtain ⟨rfl, rfl⟩ := List.cons.inj hys
        exact h₂.kept (h₁.opened before e ws hxs ho fun d hd => hnot d (List.mem_append_left _ hd))
          fun d hd => hnot d (List.mem_append_right _ hd)

theorem thenSilent {s s' s'' : σ} {xs : List ε} (h₁ : Obliges T opens closes s xs s')
    (h₂ : Obliges T opens closes s' [] s'') : Obliges T opens closes s xs s'' := by
  simpa using h₁.trans h₂

/-- A loop, each round of which keeps the obligation. -/
theorem collect {ι : Type} {step : σ → ι → σ × List ε}
    (h : ∀ s i, Obliges T opens closes s (step s i).2 (step s i).1) : ∀ (is : List ι) (s : σ),
    Obliges T opens closes s (Lib.collect step s is).2 (Lib.collect step s is).1 := by
  intro is
  induction is with
  | nil => exact fun s => refl s
  | cons i is ih => exact fun s => (h s i).trans (ih (step s i).1)

end Obliges

end Obliges

end Lib
