import CodeSage.Cli.BriefGate
import CodeSage.Graph.SessionLedgerCorrect
import CodeSage.Lib.Holders

/-!
# CodeSage.Cli.BriefGateCorrect

What holds of the gate and the ledger in every order of the steps of the fires. Only the holder of a session's lock
changes its state file, so a charge is made on the state it was judged by.
-/

namespace CodeSage
namespace Cli
namespace BriefGate

open Lib

section Names

theorem lockPath_eq (session : Text) : lockPath session = "brief-".toList ++ sanitize session ++ ".lock".toList := by
  have hdot : statePath session = ("brief-".toList ++ sanitize session) ++ '.' :: "json".toList := rfl
  rw [lockPath, withExtension, hdot, rsplitOnce_append _ (by decide)]
  rfl

theorem statePath_ne_lockPath (a b : Text) : statePath a ≠ lockPath b := by
  intro h
  have hlast := congrArg List.getLast? h
  rw [lockPath_eq, statePath, List.getLast?_append_of_ne_nil _ (by decide), List.getLast?_append_of_ne_nil _ (by decide)] at hlast
  exact absurd hlast (by decide)

/-- A text that names a file in its directory and nothing else. -/
structure SafeName (name : Text) : Prop where
  ne_nil : name ≠ []
  short : name.length ≤ 128
  visible : name.head? ≠ some '.'
  plain : ∀ c ∈ name, isNameChar c = true

theorem isAlphanum_hex {n : Nat} : ∀ c ∈ Nat.toDigits 16 n, c.isAlphanum = true := by
  have hdigit : ∀ d < 16, (Nat.digitChar d).isAlphanum = true := by decide
  induction n using Nat.strongRecOn with
  | ind n ih =>
    intro c hc
    by_cases hn : n < 16
    · rw [Nat.toDigits_of_lt_base hn, List.mem_singleton] at hc
      exact hc ▸ hdigit n hn
    · rw [Nat.toDigits_of_base_le (by omega) (by omega), List.mem_append, List.mem_singleton] at hc
      rcases hc with hc | rfl
      · exact ih (n / 16) (by omega) c hc
      · exact hdigit _ (Nat.mod_lt _ (by omega))

theorem safeName_hex (n : UInt64) : SafeName (hex n) where
  ne_nil := Nat.toDigits_ne_nil
  short := by
    have hlength : (hex n).length ≤ 16 := (Nat.length_toDigits_le_iff (by omega) (by omega)).mpr n.toNat_lt
    omega
  visible hdot := absurd (isAlphanum_hex '.' (List.mem_of_head? hdot)) (by decide)
  plain c hc := by
    rw [isNameChar, isAlphanum_hex c hc]
    rfl

/-- Whatever a hook calls its session, its files stay in the runtime directory. -/
theorem safeName_sanitize (session : Text) : SafeName (sanitize session) := by
  rw [sanitize]
  split
  · exact safeName_hex _
  · rename_i hne
    constructor
    · exact hne
    · calc _ ≤ ((session.filter isNameChar).take 128).length := (List.dropWhile_sublist _).length_le
        _ ≤ 128 := List.length_take_le _ _
    · intro hdot
      have := List.head?_dropWhile_not (· == '.') ((session.filter isNameChar).take 128)
      rw [hdot] at this
      cases this
    · intro c hc
      have hmem := List.mem_of_mem_take ((List.dropWhile_sublist _).subset hc)
      exact (List.mem_filter.mp hmem).2

end Names

end BriefGate
end Cli
end CodeSage
