import CodeSage.Graph.CycleGuidance
import Mathlib.Algebra.Order.Field.Rat

/-!
# CodeSage.Graph.Session

The baseline of a session and the gate at its end (`crates/graph/src/session.rs`): the files, the load-time import
cycles and the top-risk scores of the start, compared with those of the end.

Risk scores are rational numbers, `risk_scores` is a parameter with its failure flag, and so is the two-digit print of a
score. The snapshot is read back as it was written.
-/

namespace CodeSage
namespace Graph
namespace Session

open Scc CycleGuidance

section Cycles

/-- Larger cycles first, then by members. -/
def cycleLe (a b : List String) : Bool :=
  decide (b.length < a.length) || (decide (a.length = b.length) && decide (a ≤ b))

def sortMembers (members : List String) : List String := members.mergeSort fun a b => decide (a ≤ b)

/-- The cycles of the load-time graph. -/
def computeCycles (fuel : Nat) (eager : Edges) : Except Stop (List (List String)) :=
  match ImportCycles.load fuel eager with
  | .error stop => .error stop
  | .ok cycles =>
    .ok (((cycles.components.filter fun c => 2 ≤ c.length).map sortMembers).mergeSort cycleLe)

/-- The difference of two sets of cycles, sorted. -/
def cyclesOnlyIn (cycles others : List (List String)) : List (List String) :=
  ((cycles.filter fun c => !others.contains c).dedup).mergeSort cycleLe

/-- The difference of two sets of files, sorted. -/
def filesOnlyIn (files others : List String) : List String :=
  sortMembers ((files.filter fun f => !others.contains f).dedup)

end Cycles

section Risk

structure SessionRiskEntry where
  file : String
  score : ℚ
deriving DecidableEq, Repr

structure SessionRiskRegression where
  file : String
  before : ℚ
  after : ℚ
  delta : ℚ
deriving DecidableEq, Repr

def riskRegressionThreshold : ℚ := 5 / 100

def riskFailThreshold : ℚ := 10 / 100

/-- What the loop over the baseline keeps. -/
structure RiskScan where
  regressions : List SessionRiskRegression := []
  maxRegression : ℚ := 0
  failed : Bool

/-- The score of a file, the last one if it is listed twice. -/
def afterByFile (after : List SessionRiskEntry) (file : String) : Option ℚ :=
  (after.reverse.find? fun entry => entry.file = file).map SessionRiskEntry.score

/-- One turn of the loop. -/
def RiskScan.visit (nowFiles : List String) (after : List SessionRiskEntry) (scan : RiskScan)
    (entry : SessionRiskEntry) : RiskScan :=
  if !nowFiles.contains entry.file then scan
  else
    match afterByFile after entry.file with
    | none => { scan with failed := true }
    | some score =>
      let delta := score - entry.score
      if riskRegressionThreshold ≤ delta then
        { scan with
          regressions := scan.regressions ++ [⟨entry.file, entry.score, score, delta⟩]
          maxRegression := if scan.maxRegression < delta then delta else scan.maxRegression }
      else scan

end Risk

section Gate

structure SessionSnapshot where
  files : List String
  fileCount : Nat
  cycles : List (List String)
  topRiskFiles : List SessionRiskEntry

structure SessionDiff where
  pass : Bool
  newFiles : List String
  removedFiles : List String
  newCycles : List (List String)
  resolvedCycles : List (List String)
  riskRegressions : List SessionRiskRegression
  maxRiskRegression : ℚ
  summaryNotes : List String

/-- `build_session_snapshot_with_top_risk` -/
def buildSessionSnapshot (fuel : Nat) (files : List String) (eager : Edges) (topRisk : List SessionRiskEntry) :
    Except Stop SessionSnapshot :=
  match computeCycles fuel eager with
  | .error stop => .error stop
  | .ok cycles => .ok { files, fileCount := files.length, cycles, topRiskFiles := topRisk }

def newCyclesNote (newCycles : List (List String)) : String :=
  toString newCycles.length ++ " new import cycle(s) introduced (largest: " ++
    toString ((newCycles.map List.length).foldl max 0) ++ " files)"

variable (showDelta : ℚ → String)

/-- The notes before the one that says nothing was found. -/
def summaryNotes (snapshot : SessionSnapshot) (nowFiles newFiles removedFiles : List String)
    (newCycles resolvedCycles : List (List String)) (scan : RiskScan) : List String :=
  (if scan.failed then
    ["risk reassessment failed for one or more baseline files — session gate failed closed"] else []) ++
  (if newCycles.isEmpty then [] else [newCyclesNote newCycles]) ++
  (if resolvedCycles.isEmpty then []
    else [toString resolvedCycles.length ++ " import cycle(s) resolved during session"]) ++
  (if riskFailThreshold ≤ scan.maxRegression then
    ["max risk regression " ++ showDelta scan.maxRegression ++ " exceeds fail threshold " ++
      showDelta riskFailThreshold]
  else if scan.regressions.isEmpty then []
  else [toString scan.regressions.length ++ " top-risk file(s) regressed (max delta " ++
    showDelta scan.maxRegression ++ ")"]) ++
  (if newFiles.isEmpty && removedFiles.isEmpty then []
    else ["file count " ++ toString snapshot.fileCount ++ " → " ++ toString nowFiles.length ++ " (" ++
      toString newFiles.length ++ " added, " ++ toString removedFiles.length ++ " removed)"])

/-- `session_end`, the scores of the files of the baseline given with whether one of them failed. -/
def sessionEnd (riskScores : List String → List SessionRiskEntry × Bool) (fuel : Nat) (snapshot : SessionSnapshot)
    (nowFiles : List String) (eager : Edges) : Except Stop SessionDiff :=
  match computeCycles fuel eager with
  | .error stop => .error stop
  | .ok nowCycles =>
    let newFiles := filesOnlyIn nowFiles snapshot.files
    let removedFiles := filesOnlyIn snapshot.files nowFiles
    let newCycles := cyclesOnlyIn nowCycles snapshot.cycles
    let resolvedCycles := cyclesOnlyIn snapshot.cycles nowCycles
    let baselineFiles := (snapshot.topRiskFiles.filter fun entry => nowFiles.contains entry.file).map
      SessionRiskEntry.file
    let (afterScores, riskFailure) := riskScores baselineFiles
    let scan := snapshot.topRiskFiles.foldl (RiskScan.visit nowFiles afterScores) { failed := riskFailure }
    let pass := newCycles.isEmpty && decide (scan.maxRegression < riskFailThreshold) && !scan.failed
    let notes := summaryNotes showDelta snapshot nowFiles newFiles removedFiles newCycles resolvedCycles scan
    .ok {
      pass, newFiles, removedFiles, newCycles, resolvedCycles
      riskRegressions := scan.regressions.mergeSort fun a b => decide (b.delta ≤ a.delta)
      maxRiskRegression := scan.maxRegression
      summaryNotes := if pass && notes.isEmpty then ["no structural regressions detected"] else notes }

end Gate

end Session
end Graph
end CodeSage
