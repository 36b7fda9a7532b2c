import Mathlib.Data.List.Basic

/-!
# CodeSage.Lib.Script

Scripts of statements over a state. A statement either changes the state or fails and leaves it as it was;
the world may fail any call. `run` keeps the state a failure was met in, `exec` is the script in a world
without failures: where a run succeeds, both give the same state.
-/

namespace Lib
namespace Script

variable {σ ε : Type}

abbrev Stmt (σ ε : Type) := σ → Except ε σ

/-- The script in a world without failures. -/
def exec : List (Stmt σ ε) → σ → Except ε σ
  | [], s => .ok s
  | stmt :: rest, s => (stmt s).bind (exec rest)

/-- What is left after a script: the failure it met, the state, and the number of calls made. -/
structure Outcome (σ ε : Type) where
  failure : Option ε
  state : σ
  calls : Nat

/-- `fails n` is the failure of the world at the `n`-th call. -/
def run (fails : Nat → Option ε) : List (Stmt σ ε) → Nat → σ → Outcome σ ε
  | [], n, s => ⟨none, s, n⟩
  | stmt :: rest, n, s =>
    match fails n with
    | some e => ⟨some e, s, n + 1⟩
    | none =>
      match stmt s with
      | .error e => ⟨some e, s, n + 1⟩
      | .ok s' => run fails rest (n + 1) s'

theorem exec_of_run {fails : Nat → Option ε} {script : List (Stmt σ ε)} {n : Nat} {s : σ}
    (h : (run fails script n s).failure = none) : exec script s = .ok (run fails script n s).state := by
  induction script generalizing n s with
  | nil => rfl
  | cons stmt rest ih =>
    rw [run] at h ⊢
    cases hfail : fails n with
    | some e => simp [hfail] at h
    | none =>
      cases hstmt : stmt s with
      | error e => simp [hfail, hstmt] at h
      | ok s' =>
        simp only [hfail, hstmt] at h ⊢
        rw [exec, hstmt]
        exact ih h

theorem exec_append (a b : List (Stmt σ ε)) (s : σ) : exec (a ++ b) s = (exec a s).bind (exec b) := by
  induction a generalizing s with
  | nil => rfl
  | cons stmt a ih =>
    rw [List.cons_append, exec, exec]
    cases stmt s with
    | error e => rfl
    | ok s' => exact ih s'

/-- From a script that went through, the state between its two halves. -/
theorem exec_append_ok {a b : List (Stmt σ ε)} {s s' : σ} (h : exec (a ++ b) s = .ok s') :
    ∃ m, exec a s = .ok m ∧ exec b m = .ok s' := by
  rw [exec_append] at h
  cases hm : exec a s with
  | error e => simp [hm, Except.bind] at h
  | ok m => exact ⟨m, rfl, by simpa [hm, Except.bind] using h⟩

theorem exec_cons_ok {stmt : Stmt σ ε} {rest : List (Stmt σ ε)} {s s' : σ} (h : exec (stmt :: rest) s = .ok s') :
    ∃ m, stmt s = .ok m ∧ exec rest m = .ok s' := by
  rw [exec] at h
  cases hm : stmt s with
  | error e => simp [hm, Except.bind] at h
  | ok m => exact ⟨m, rfl, by simpa [hm, Except.bind] using h⟩

/-- One loop of a script: a relation between the items done and the state, which the statements of each item
extend by that item. -/
theorem exec_flatMap_ok {α : Type} {f : α → List (Stmt σ ε)} {R : List α → σ → Prop} {s s' : σ} {xs : List α}
    (h : exec (xs.flatMap f) s = .ok s') (hnil : R [] s)
    (hstep : ∀ done x m m', x ∈ xs → R done m → exec (f x) m = .ok m' → R (done ++ [x]) m') : R xs s' := by
  have key : ∀ (rest done : List α) (m : σ), rest ⊆ xs → R done m → exec (rest.flatMap f) m = .ok s' →
      R (done ++ rest) s' := by
    intro rest
    induction rest with
    | nil =>
      intro done m _ hm h
      cases h
      simpa using hm
    | cons x rest ih =>
      intro done m hsub hm h
      obtain ⟨m', hx, hrest⟩ := exec_append_ok h
      have := ih (done ++ [x]) m' (List.subset_of_cons_subset hsub)
        (hstep done x m m' (hsub List.mem_cons_self) hm hx) hrest
      simpa using this
  simpa using key xs [] s (List.Subset.refl xs) hnil h

theorem exec_map_ok {α : Type} {f : α → Stmt σ ε} {R : List α → σ → Prop} {s s' : σ} {xs : List α}
    (h : exec (xs.map f) s = .ok s') (hnil : R [] s)
    (hstep : ∀ done x m m', R done m → f x m = .ok m' → R (done ++ [x]) m') : R xs s' := by
  have hflat : xs.map f = xs.flatMap fun x => [f x] := List.map_eq_flatMap
  rw [hflat] at h
  refine exec_flatMap_ok h hnil fun done x m m' _ hm hx => ?_
  obtain ⟨m'', hx, hend⟩ := exec_cons_ok hx
  cases hend
  exact hstep done x m m' hm hx

end Script
end Lib
