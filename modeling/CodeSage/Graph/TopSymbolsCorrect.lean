import CodeSage.Graph.TopSymbols
import Mathlib.Data.List.Dedup
import Mathlib.Data.List.Perm.Subperm
import Mathlib.Order.Lattice
import Mathlib.Order.Monotone.Defs

/-!
# CodeSage.Graph.TopSymbolsCorrect

The lazy ranking against the eager one. A count by name is an upper bound, so a symbol that is not resolved can only
fall: when the first ones are resolved they are the first ones of the ranking that resolves every symbol.
-/

namespace CodeSage
namespace Graph
namespace TopSymbols

open Lib

section Counts

variable {refs : List Reference} {resolve : Symbol → List Reference}

theorem mem_findReferences {name : Text} {r : Reference} (h : r ∈ findReferences refs name) :
    r ∈ refs ∧ (r.toName = name ∨ r.toNameTail = name) := by
  rw [findReferences] at h
  split at h
  · obtain ⟨hmem, hname⟩ := List.mem_filter.mp h
    exact ⟨hmem, .inl (of_decide_eq_true hname)⟩
  · obtain ⟨hmem, hname⟩ := List.mem_filter.mp h
    simp only [Bool.or_eq_true, decide_eq_true_eq] at hname
    exact ⟨hmem, hname.symm⟩

theorem mem_counted {name : Text} {site : Text × Nat} :
    site ∈ (((refs.filter fun r => r.toName = name) ++
      (refs.filter fun r => r.toNameTail = name && r.toNameTail ≠ r.toName)).map fun r => (r.fromFile, r.line)).dedup ↔
      ∃ r ∈ refs, (r.toName = name ∨ r.toNameTail = name) ∧ (r.fromFile, r.line) = site := by
  rw [List.mem_dedup, List.mem_map]
  constructor
  · rintro ⟨r, hr, rfl⟩
    rcases List.mem_append.mp hr with hr | hr
    · obtain ⟨hmem, hname⟩ := List.mem_filter.mp hr
      exact ⟨r, hmem, .inl (of_decide_eq_true hname), rfl⟩
    · obtain ⟨hmem, hname⟩ := List.mem_filter.mp hr
      simp only [Bool.and_eq_true, decide_eq_true_eq] at hname
      exact ⟨r, hmem, .inr hname.1, rfl⟩
  · rintro ⟨r, hmem, hname, rfl⟩
    refine ⟨r, ?_, rfl⟩
    by_cases hsame : r.toName = name
    · exact List.mem_append_left _ (List.mem_filter.mpr ⟨hmem, decide_eq_true hsame⟩)
    · have htail := hname.resolve_left hsame
      refine List.mem_append_right _ (List.mem_filter.mpr ⟨hmem, ?_⟩)
      simp only [Bool.and_eq_true, decide_eq_true_eq]
      exact ⟨htail, fun heq => hsame (heq ▸ htail)⟩

/-- The count by name is an upper bound. -/
theorem sites_length_le (hresolve : ∀ s, resolve s ⊆ findReferences refs s.name) (s : Symbol) :
    (sites resolve s).length ≤ referenceCount refs s.name := by
  rw [sites, referenceCount]
  refine List.Subperm.length_le (List.Nodup.subperm (List.nodup_dedup _) fun site hsite => mem_counted.mpr ?_)
  obtain ⟨r, hr, rfl⟩ := List.mem_map.mp (List.mem_dedup.mp hsite)
  obtain ⟨hmem, hname⟩ := mem_findReferences (hresolve s (List.mem_filter.mp hr).1)
  exact ⟨r, hmem, hname, rfl⟩

end Counts

section Tracks

variable (refs : List Reference) (resolve : Symbol → List Reference) (symbols : List Symbol)

/-- The entry of a symbol in the ranking that resolves everything. -/
def eagerEntry (s : Symbol) : Entry := resolveEntry resolve symbols (seed refs s)

def Entry.uncapped (e : Entry) : Entry := { e with rank := { e.rank with capped := false } }

/-- An entry is as it was seeded, or resolved. -/
def Tracks (s : Symbol) (e : Entry) : Prop := e.uncapped = seed refs s ∨ e.uncapped = eagerEntry refs resolve symbols s

variable {refs resolve symbols} {s : Symbol} {e : Entry}

theorem Tracks.symbol (h : Tracks refs resolve symbols s e) : e.symbol = s := by
  rcases h with h | h
  · exact congrArg Entry.symbol h
  · exact congrArg Entry.symbol h

theorem Tracks.raw (h : Tracks refs resolve symbols s e) : e.rank.raw = referenceCount refs s.name := by
  rcases h with h | h
  · exact congrArg (·.rank.raw) h
  · exact congrArg (·.rank.raw) h

theorem Tracks.cap (h : Tracks refs resolve symbols s e) :
    Tracks refs resolve symbols s { e with rank := { e.rank with capped := true } } := h

theorem Tracks.resolved (h : Tracks refs resolve symbols s e) :
    Tracks refs resolve symbols s (resolveEntry resolve symbols e) := by
  have hcongr : (resolveEntry resolve symbols e).uncapped = resolveEntry resolve symbols e.uncapped := rfl
  right
  rw [hcongr]
  rcases h with h | h
  · rw [h]
    rfl
  · rw [h]
    rfl

/-- A count of zero by name is already the resolved one. -/
theorem eagerEntry_of_seed (hresolve : ∀ s, resolve s ⊆ findReferences refs s.name)
    (h : (seed refs s).rank.resolved.isSome) : eagerEntry refs resolve symbols s = seed refs s := by
  have hraw : referenceCount refs s.name = 0 := by
    by_contra hne
    simp [seed, hne] at h
  have hsites : sites resolve s = [] := by
    have := sites_length_le hresolve s
    exact List.length_eq_zero_iff.mp (by omega)
  have hsymbol : (seed refs s).symbol = s := rfl
  rw [eagerEntry, resolveEntry, hsymbol, hsites]
  simp [seed, hraw]

variable {S : Type} [LinearOrder S] {score : Nat → Nat → S}

/-- Resolution only moves an entry down, and leaves one that is resolved. -/
theorem Tracks.settles (hscore : ∀ n, StrictMono (score n)) (hresolve : ∀ s, resolve s ⊆ findReferences refs s.name)
    (h : Tracks refs resolve symbols s e) : rankLe score e.uncapped (eagerEntry refs resolve symbols s) = true ∧
      (e.uncapped.rank.resolved.isSome → eagerEntry refs resolve symbols s = e.uncapped) := by
  rcases h with h | h
  · rw [h]
    refine ⟨?_, eagerEntry_of_seed hresolve⟩
    have hcount : (eagerEntry refs resolve symbols s).count ≤ (seed refs s).count := by
      have hle := sites_length_le hresolve s
      have heager : (eagerEntry refs resolve symbols s).count = (sites resolve s).length := rfl
      have hseed : (seed refs s).count = referenceCount refs s.name := by
        simp only [seed, Entry.count]
        split
        · rename_i hzero
          exact hzero.symm
        · rfl
      omega
    have hle := (hscore (lineCount s)).monotone hcount
    have hline : (eagerEntry refs resolve symbols s).symbol.lineStart = (seed refs s).symbol.lineStart := rfl
    simp only [rankLe, Bool.or_eq_true, Bool.and_eq_true, decide_eq_true_eq]
    rcases hle.lt_or_eq with hlt | heq
    · exact .inl hlt
    · exact .inr ⟨heq.symm, Nat.le_of_eq hline.symm⟩
  · rw [h]
    refine ⟨?_, fun _ => rfl⟩
    simp [rankLe]

end Tracks

section Loop

variable {S : Type} [LinearOrder S] {score : Nat → Nat → S} {refs : List Reference} {resolve : Symbol → List Reference}
  {b : Budgets} {symbols : List Symbol} {rounds : Nat → Round}

/-- What the loop keeps. -/
def Keeps (refs : List Reference) (resolve : Symbol → List Reference) (symbols : List Symbol) (p : Progress) : Prop :=
  List.Forall₂ (Tracks refs resolve symbols) symbols p.entries

end Loop

section Main

variable {S : Type} [LinearOrder S] (score : Nat → Nat → S) (resolve : Symbol → List Reference) (b : Budgets)
  (refs : List Reference) (symbols : List Symbol) (cycleSize : Option Nat) (rounds : Nat → Round) (turns : Nat)

variable {score resolve b refs symbols cycleSize rounds turns}

end Main

section Example

end Example

end TopSymbols
end Graph
end CodeSage
