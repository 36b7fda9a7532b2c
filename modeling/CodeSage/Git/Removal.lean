import CodeSage.Git.Coupling
import CodeSage.Git.Linear

/-!
# CodeSage.Git.Removal

Passes over a linear history between which the structural indexer removes files. A removal takes the rows of
its path out of the history tables, and no later pass writes them again. It goes unnoticed at a HEAD `last`
when the path had no row, or when it is gone for good (`Gone`): absent from that HEAD's tree and in no rename
on the way there. `Follows` is the invariant of such runs.
-/

namespace CodeSage
namespace Git

open Lib

/-- A pass at a HEAD, or a removal by the structural indexer. -/
inductive Event where
  | index (head : Nat)
  | remove (path : String)
  deriving DecidableEq, Repr

namespace History

def handle (policy : Policy) (h : History) (state : Option (Nat × Database)) : Event → Option (Option (Nat × Database))
  | .index head => h.indexAt policy state head
  | .remove path => some (state.map fun s => (s.1, removeFile s.2 path))

/-- The path is not in the tree of `last`, and no commit on the way from `n` renames it or renames a file onto it. -/
def Gone (h : History) (n last : Nat) (path : String) : Prop :=
  path ∉ h.treeAt last ∧ ∀ (j : Nat) r, n ≤ j → j < last → h[j]? = some r →
    ∀ old new, (old, new) ∈ r.commit.renames → old ≠ path ∧ new ≠ path

instance (h : History) (n last : Nat) (path : String) : Decidable (h.Gone n last path) :=
  decidable_of_iff (path ∉ h.treeAt last ∧ ∀ j < last, n ≤ j → ∀ r ∈ h[j]?,
      ∀ m ∈ r.commit.renames, m.1 ≠ path ∧ m.2 ≠ path) <| by
    constructor
    · exact fun hgone => ⟨hgone.1, fun j r hn hj hr old new hm => hgone.2 j hj hn r hr (old, new) hm⟩
    · exact fun hgone => ⟨hgone.1, fun j hj hn r hr m hm => hgone.2 j r hn hj hr m.1 m.2 hm⟩

end History

section Gone

open History

variable {policy : Policy} {h : History} {last : Nat}

end Gone

section Follows

open History

variable {policy : Policy} {h : History} {last : Nat}

/-- The store agrees with the scan at `n` on every path that is not gone. -/
structure Follows (policy : Policy) (h : History) (last n : Nat) (db : Database) : Prop where
  files : ∀ path, ¬h.Gone n last path → db.gitFiles.lookup path = fileContent (scan policy h n) path
  pairs : ∀ a b, ¬h.Gone n last a → ¬h.Gone n last b →
    db.gitCoChanges.lookup (a, b) = (pairContent policy (scan policy h n) (a, b)).map CoChangeRow.ofStats
  coupled : Coupled db
  recorded : ∀ path, Stored db path → Recorded (scan policy h n) path

section Rekeyed

variable {n m : Nat} {db : Database} (hdb : Follows policy h last n db) (hle : n ≤ m) (hlast : m ≤ last)
  (hlen : last ≤ h.length)
  (hno : rekeyDivergesFromFullScan policy db (movesOf policy (successorsOf policy h n m)) = false)
  (hindexed : Indexed policy (successorsOf policy h n m) (scan policy h n))

end Rekeyed

end Follows

section Events

open History

variable {policy : Policy} {h : History} {last : Nat}

/-- The store is empty before the first pass, and follows the history from then on. -/
def Tracks (policy : Policy) (h : History) (last : Nat) : Option Nat → Option (Nat × Database) → Prop
  | none, state => state = none
  | some n, state => ∃ db, state = some (n, db) ∧ Follows policy h last n db

end Events

end Git
end CodeSage
