import Mathlib.Data.List.MinMax
import Mathlib.Data.List.Perm.Basic
import CodeSage.Git.Indexer

/-!
# CodeSage.Git.Content

What the history tables are for: `Keyed` is a commit with the paths it counts for, and the content of the
tables is a summary of a collection of them, row by row. `Holds` says that a database holds the summary of
`ks`; summaries of appended collections are put together by the `ON CONFLICT` clauses.
-/

namespace CodeSage
namespace Git

open Lib

structure Keyed where
  sha : String
  author : String
  timestamp : Int
  isFix : Bool
  paths : List String
  deriving DecidableEq, Repr

def keyedOf (policy : Policy) (commit : Commit) : Option Keyed :=
  (filterKept policy commit).map fun kept =>
    ⟨commit.sha, commit.author, commit.timestamp, isFixCommit commit.subject, kept⟩

section Summaries

variable {ν : Type}

/-- A row exists when something contributes to it. -/
def summarize (f : List Keyed → ν) (ks : List Keyed) : Option ν := if ks = [] then none else some (f ks)

/-- The row after a delta is written over it. -/
def overwrite {μ : Type} (g : μ → Option ν → ν) (old : Option ν) (delta : Option μ) : Option ν :=
  delta.elim old fun v => some (g v old)

@[simp] theorem summarize_nil (f : List Keyed → ν) : summarize f [] = none := rfl

theorem summarize_append {μ : Type} (f : List Keyed → ν) (d : List Keyed → μ) (g : μ → Option ν → ν)
    (hnone : ∀ ks, g (d ks) none = f ks)
    (hsome : ∀ xs ys, xs ≠ [] → ys ≠ [] → g (d ys) (some (f xs)) = f (xs ++ ys)) (xs ys : List Keyed) :
    summarize f (xs ++ ys) = overwrite g (summarize f xs) (summarize d ys) := by
  by_cases hys : ys = []
  · rw [hys, List.append_nil]
    rfl
  · by_cases hxs : xs = []
    · simp [summarize, overwrite, hxs, hys, hnone]
    · simp [summarize, overwrite, hxs, hys, hsome]

end Summaries

section Rows

def timestamps (ks : List Keyed) : List Int := ks.map Keyed.timestamp

def fileStatsOf (ks : List Keyed) : GitFileRow :=
  ⟨ks.countP Keyed.isFix, ks.length, (timestamps ks).max?⟩

def maskOf (ks : List Keyed) : UInt64 := (timestamps ks).foldr (fun t mask => windowBit t ||| mask) 0

def pairStatsOf (ks : List Keyed) : PairStats :=
  ⟨ks.length, (timestamps ks).min?, (timestamps ks).max?, maskOf ks⟩

/-- The commits that count for a file. -/
def touching (ks : List Keyed) (path : String) : List Keyed := ks.filter fun k => path ∈ k.paths

/-- The commits that count for a pair. -/
def sharing (policy : Policy) (ks : List Keyed) (pair : String × String) : List Keyed :=
  ks.filter fun k => pair ∈ admittedPairs policy k.paths

def fileContent (ks : List Keyed) (path : String) : Option GitFileRow := summarize fileStatsOf (touching ks path)

def pairContent (policy : Policy) (ks : List Keyed) (pair : String × String) : Option PairStats :=
  summarize pairStatsOf (sharing policy ks pair)

def CoChangeRow.ofStats (stats : PairStats) : CoChangeRow := stats.write.row

def eventOf (k : Keyed) : AuthorEvent := ⟨k.author, k.timestamp⟩

/-- The event of the last commit with that name. -/
def eventContent (ks : List Keyed) (path sha : String) : Option AuthorEvent :=
  (ks.reverse.find? fun k => k.sha = sha ∧ path ∈ k.paths).map eventOf

end Rows

/-- The tables hold the summary of `ks`. -/
structure Holds (policy : Policy) (db : Database) (ks : List Keyed) : Prop where
  files : ∀ path, db.gitFiles.lookup path = fileContent ks path
  pairs : ∀ pair, db.gitCoChanges.lookup pair = (pairContent policy ks pair).map CoChangeRow.ofStats
  events : ∀ path sha, db.authorEvents.lookup (path, sha) = eventContent ks path sha

section Append

theorem max?_append (xs ys : List Int) : (xs ++ ys).max? = Option.merge max xs.max? ys.max? := by
  induction xs with
  | nil =>
    rw [List.nil_append, List.max?_nil]
    cases ys.max? <;> rfl
  | cons x xs ih =>
    rw [List.cons_append, List.max?_cons, List.max?_cons, ih]
    cases xs.max? <;> cases ys.max? <;> simp [Option.merge, max_assoc]

theorem min?_append (xs ys : List Int) : (xs ++ ys).min? = Option.merge min xs.min? ys.min? := by
  induction xs with
  | nil =>
    rw [List.nil_append, List.min?_nil]
    cases ys.min? <;> rfl
  | cons x xs ih =>
    rw [List.cons_append, List.min?_cons, List.min?_cons, ih]
    cases xs.min? <;> cases ys.min? <;> simp [Option.merge, min_assoc]

theorem newest_eq (xs ys : List Int) : newest xs.max? ys.max? = (xs ++ ys).max? := by
  rw [max?_append]
  cases xs.max? <;> cases ys.max? <;> rfl

theorem maskOf_append (xs ys : List Keyed) : maskOf (xs ++ ys) = maskOf xs ||| maskOf ys := by
  induction xs with
  | nil => simp [maskOf, timestamps]
  | cons k xs ih =>
    change windowBit k.timestamp ||| maskOf (xs ++ ys) = windowBit k.timestamp ||| maskOf xs ||| maskOf ys
    rw [ih, UInt64.or_assoc]

theorem timestamps_append (xs ys : List Keyed) : timestamps (xs ++ ys) = timestamps xs ++ timestamps ys :=
  List.map_append

theorem fileContent_append (xs ys : List Keyed) (path : String) :
    fileContent (xs ++ ys) path = overwrite fileRow (fileContent xs path) (fileContent ys path) := by
  rw [fileContent, touching, List.filter_append]
  refine summarize_append fileStatsOf fileStatsOf fileRow (fun ks => rfl) (fun xs ys _ _ => ?_) _ _
  simp [fileRow, fileStatsOf, newest_eq, timestamps_append]

theorem timestamps_min?_ne_none {ks : List Keyed} (h : ks ≠ []) : ∃ t, (timestamps ks).min? = some t := by
  cases ks with
  | nil => exact absurd rfl h
  | cons k ks => exact ⟨_, List.min?_cons⟩

/-- The clauses of `incr_git_co_change_full` on rows with a known span. -/
theorem coChangeRow_ofStats {xs ys : List Keyed} (hxs : xs ≠ []) (hys : ys ≠ []) :
    coChangeRow (pairStatsOf ys).write (some (CoChangeRow.ofStats (pairStatsOf xs))) =
      CoChangeRow.ofStats (pairStatsOf (xs ++ ys)) := by
  obtain ⟨s, hs⟩ := timestamps_min?_ne_none hxs
  obtain ⟨t, ht⟩ := timestamps_min?_ne_none hys
  have hmin : (timestamps (xs ++ ys)).min? = some (min s t) := by
    rw [timestamps_append, min?_append, hs, ht]
    rfl
  simp [coChangeRow, CoChangeRow.ofStats, CoChangeWrite.row, PairStats.write, pairStatsOf, hs, ht, hmin,
    newest_eq, ← timestamps_append, maskOf_append]

theorem pairContent_append (policy : Policy) (xs ys : List Keyed) (pair : String × String) :
    (pairContent policy (xs ++ ys) pair).map CoChangeRow.ofStats =
      overwrite (fun stats => coChangeRow stats.write) ((pairContent policy xs pair).map CoChangeRow.ofStats)
        (pairContent policy ys pair) := by
  have hmap : ∀ ks, (summarize pairStatsOf ks).map CoChangeRow.ofStats =
      summarize (fun ks => CoChangeRow.ofStats (pairStatsOf ks)) ks := by
    intro ks
    simp only [summarize]
    split <;> rfl
  rw [pairContent, pairContent, pairContent, sharing, List.filter_append, hmap, hmap]
  exact summarize_append (fun ks => CoChangeRow.ofStats (pairStatsOf ks)) pairStatsOf _ (fun ks => rfl)
    (fun xs ys hxs hys => coChangeRow_ofStats hxs hys) _ _

theorem eventContent_append (xs ys : List Keyed) (path sha : String) :
    eventContent (xs ++ ys) path sha = overwrite (fun event _ => event) (eventContent xs path sha)
      (eventContent ys path sha) := by
  rw [eventContent, List.reverse_append, List.find?_append, eventContent, eventContent]
  cases (ys.reverse.find? fun k => k.sha = sha ∧ path ∈ k.paths) <;> rfl

end Append

section One

theorem fileContent_singleton (k : Keyed) (path : String) :
    fileContent [k] path = if path ∈ k.paths then some (fileStatsOf [k]) else none := by
  by_cases h : path ∈ k.paths <;> simp [fileContent, touching, h, summarize]

theorem pairContent_singleton (policy : Policy) (k : Keyed) (pair : String × String) :
    pairContent policy [k] pair =
      if pair ∈ admittedPairs policy k.paths then some (pairStatsOf [k]) else none := by
  by_cases h : pair ∈ admittedPairs policy k.paths <;> simp [pairContent, sharing, h, summarize]

theorem eventContent_singleton (k : Keyed) (path sha : String) :
    eventContent [k] path sha = if k.sha = sha ∧ path ∈ k.paths then some (eventOf k) else none := by
  by_cases h : k.sha = sha ∧ path ∈ k.paths <;> simp [eventContent, h]

theorem later_eq (t timestamp : Int) :
    (if t < timestamp then some timestamp else some t) = some (max t timestamp) := by
  split
  · rename_i h
    rw [max_eq_right h.le]
  · rename_i h
    rw [max_eq_left (not_lt.mp h)]

theorem earlier_eq (t timestamp : Int) :
    (if t > timestamp then some timestamp else some t) = some (min t timestamp) := by
  split
  · rename_i h
    rw [min_eq_right (le_of_lt h)]
  · rename_i h
    rw [min_eq_left (not_lt.mp h)]

theorem bumpFile_eq (k : Keyed) (old : Option GitFileRow) :
    bumpFile k.timestamp k.isFix old = fileRow (fileStatsOf [k]) old := by
  cases old with
  | none => cases h : k.isFix <;> simp [bumpFile, fileRow, fileStatsOf, timestamps, h]
  | some row =>
    obtain ⟨fix, total, last⟩ := row
    cases last with
    | none => cases h : k.isFix <;> simp [bumpFile, fileRow, fileStatsOf, timestamps, newest, h]
    | some t => cases h : k.isFix <;> simp [bumpFile, fileRow, fileStatsOf, timestamps, newest, later_eq, h]

/-- One shared commit more, as a summary. -/
def addPair (delta : PairStats) : Option PairStats → PairStats
  | none => delta
  | some old => ⟨old.count + delta.count, Option.merge min old.firstObservedAt delta.firstObservedAt,
      Option.merge max old.lastObservedAt delta.lastObservedAt, old.windowMask ||| delta.windowMask⟩

theorem bumpPair_eq (k : Keyed) (old : Option PairStats) :
    bumpPair k.timestamp old = addPair (pairStatsOf [k]) old := by
  cases old with
  | none => simp [bumpPair, addPair, pairStatsOf, timestamps, maskOf]
  | some row =>
    obtain ⟨count, first, last, mask⟩ := row
    simp only [bumpPair, addPair, Option.getD_some, PairStats.mk.injEq]
    refine ⟨rfl, ?_, ?_, ?_⟩
    · cases first with
      | none => rfl
      | some t => exact earlier_eq t k.timestamp
    · cases last with
      | none => rfl
      | some t => exact later_eq t k.timestamp
    · simp [pairStatsOf, timestamps, maskOf]

theorem pairStats_append (policy : Policy) (xs ys : List Keyed) (pair : String × String) :
    pairContent policy (xs ++ ys) pair =
      overwrite addPair (pairContent policy xs pair) (pairContent policy ys pair) := by
  rw [pairContent, sharing, List.filter_append]
  refine summarize_append pairStatsOf pairStatsOf addPair (fun ks => rfl) (fun xs ys _ _ => ?_) _ _
  simp [addPair, pairStatsOf, timestamps_append, min?_append, max?_append, maskOf_append]

end One

end Git
end CodeSage
