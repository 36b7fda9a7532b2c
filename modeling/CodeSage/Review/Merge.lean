import CodeSage.Review.Validate
import Mathlib.Data.List.Sort

/-!
# CodeSage.Review.Merge

`merge_document`: the stored findings of a feature are updated by a validated response, and its new findings are
added. The fields of the document that are copied from the feature are left out; the state and the head that it
records are inputs.
-/

namespace CodeSage
namespace Review

open Lib

inductive Mode where
  | review | revalidate
  deriving DecidableEq

structure Verdict where
  findingId : Text
  verdict : Option Text
  note : Option Text
  refutation : Option Text

/-- A refuted candidate in the summary. -/
structure Refuted where
  findingId : Text
  title : Text
  refutation : Option Text

structure Summary where
  new : List Text
  recurring : List Text
  reopened : List Text
  notSeen : List Text
  outOfScope : List Text
  refuted : List Refuted
  unverified : List Text
  evidenceRejected : List Rejected
  suppressed : List Text
  ackSweep : List Diagnostic

/-- The order of `sorted` on texts -/
def textLe : Text → Text → Bool
  | [], _ => true
  | _ :: _, [] => false
  | a :: as, b :: bs => a.toNat < b.toNat || (a = b && textLe as bs)

/-- `sorted` of a set of texts -/
def sortedTexts (texts : List Text) : List Text := texts.dedup.insertionSort fun a b => textLe a b

/-- The inputs of a merge beside the document. -/
structure MergeInput where
  featureId : Text
  verdicts : List Verdict
  runId : Text
  now : Text
  mode : Mode
  targetFindingIds : Option (List Text)
  reviewedState : Text
  gitHead : Option Text

/-- What the loop over the stored findings reads. -/
structure Context where
  mode : Mode
  now : Text
  runId : Text
  targets : List Text
  superseded : List (Text × List Origin)
  returned : Table Text Accepted

def lastEventIsPending (history : List Event) : Bool :=
  match history.getLast? with
  | some event => event.action = "not-seen".toList && event.result = some "needs-confirmation".toList
  | none => false

def Finding.log (f : Finding) (e : Event) : Finding := { f with history := f.history ++ [e] }

/-- The fields of the response, in place of the stored ones. -/
def takeUpdate (c : Context) (update : Accepted) (prior : Finding) : Finding :=
  { prior with toAccepted := update, lastSeenAt := some c.now }

/-- A finding that was waiting for confirmation has been seen. -/
def seenAgain (c : Context) (current : Finding) : Finding :=
  match current.history.getLast? with
  | some event =>
    if event.action = "not-seen".toList then
      current.log { action := "review".toList, time := c.now, runId := some c.runId, result := some "seen-again".toList }
    else current
  | none => current

def stillPresent (c : Context) : Event :=
  { action := "revalidate".toList, time := c.now, runId := some c.runId, result := some "still-present".toList }

def reopenedByReview (c : Context) : Event :=
  { action := "review".toList, time := c.now, runId := some c.runId, result := some "reopened".toList,
    fromStatus := some .fixed, toStatus := some .opened }

/-- A fixed finding is opened again; in a revalidation there is an event in every case. -/
def reopenFixed (c : Context) (current : Finding) : Finding :=
  match c.mode with
  | .revalidate =>
    if current.status = .fixed then
      { current with status := .opened }.log
        { stillPresent c with fromStatus := some .fixed, toStatus := some .opened }
    else current.log (stillPresent c)
  | .review =>
    if current.status = .fixed then { current with status := .opened }.log (reopenedByReview c) else current

/-- Why an acknowledgement does not cover the magnitude that was returned. -/
def staleReason (magnitude : Option Magnitude) (ack : Acknowledgement) : Option Text :=
  match magnitude with
  | none => some "magnitude-missing".toList
  | some magnitude =>
    if magnitude.metric ≠ ack.metric then some "metric-changed".toList
    else if ack.value < magnitude.value then some "magnitude-increased".toList
    else none

/-- The acknowledgement of a finding that it silences, and the reason why it does not any more. -/
def ackCheck (current : Finding) : Option (Option Text) :=
  match current.acknowledgement with
  | some ack =>
    if current.status = .falsePositive || current.status = .wontFix then some (staleReason current.magnitude ack) else none
  | none => none

def ackReopened (c : Context) (status : Status) (reason : Text) : Event :=
  { action := "ack-reopened".toList, time := c.now, runId := some c.runId, reason := some reason,
    fromStatus := some status, toStatus := some .opened }

def reopenAck (c : Context) (current : Finding) (reason : Text) : Finding :=
  { current with status := .opened }.log (ackReopened c current.status reason)

/-- The last part of a returned finding: its acknowledgement. -/
def mergeAck (c : Context) (findingId : Text) (current : Finding) (s : Summary) : Finding × Summary :=
  match ackCheck current with
  | some (some reason) =>
    (reopenAck c current reason,
      { s with
        reopened := s.reopened ++ [findingId]
        ackSweep := s.ackSweep ++ [{ findingId := some findingId, kind := "stale".toList, reason := reason }] })
  | some none => (current, { s with suppressed := s.suppressed ++ [findingId] })
  | none => (current, s)

def Summary.noteReopened (s : Summary) (findingId : Text) : Summary := { s with reopened := s.reopened ++ [findingId] }

def Summary.noteRecurring (s : Summary) (findingId : Text) : Summary :=
  if findingId ∈ s.suppressed then s else { s with recurring := s.recurring ++ [findingId] }

/-- A stored finding that was returned. -/
def mergeReturned (c : Context) (update : Accepted) (prior : Finding) (s : Summary) : Finding × Summary :=
  let current := seenAgain c (takeUpdate c update prior)
  let s := if current.status = .fixed then s.noteReopened prior.findingId else s
  let result := mergeAck c prior.findingId (reopenFixed c current) s
  (result.1, result.2.noteRecurring prior.findingId)

/-- The finding is one that this merge looks for. -/
def inScope (c : Context) (findingId : Text) : Bool := c.mode = .review || findingId ∈ c.targets

/-- A stored finding that was not returned. -/
def mergeMissing (c : Context) (prior : Finding) (s : Summary) : Finding × Summary :=
  if prior.status = .opened && inScope c prior.findingId && !lastEventIsPending prior.history then
    (prior.log { action := "not-seen".toList, time := c.now, runId := some c.runId,
                 result := some "needs-confirmation".toList },
      { s with notSeen := s.notSeen ++ [prior.findingId] })
  else (prior, s)

/-- An acknowledgement whose finding was looked for and not returned. -/
def sweepMissing (c : Context) (current : Finding) (s : Summary) : Summary :=
  if current.acknowledgement.isSome && inScope c current.findingId then
    { s with ackSweep := s.ackSweep ++ [{ findingId := some current.findingId, kind := "foreign".toList,
                                           reason := "not-emitted-by-current-review".toList }] }
  else s

def mergePrior (c : Context) (prior : Finding) (s : Summary) : Finding × Summary :=
  match c.superseded.lookup prior.findingId with
  | some destinations => ({ prior with ackTransferredTo := some destinations }, s)
  | none =>
    match c.returned.lookup prior.findingId with
    | some update => mergeReturned c update prior s
    | none =>
      let result := mergeMissing c prior s
      (result.1, sweepMissing c result.1 result.2)

/-- The ids of the stored findings that were returned, in order. -/
def seenPriorIds (c : Context) (findings : List Finding) : List Text :=
  (findings.filter fun prior =>
    (c.superseded.lookup prior.findingId).isNone && (c.returned.lookup prior.findingId).isSome).map (·.findingId)

/-- The loop over the stored findings. -/
def mergePriors (c : Context) : List Finding → Summary → List Finding × Summary
  | [], s => ([], s)
  | prior :: rest, s =>
    let one := mergePrior c prior s
    let others := mergePriors c rest one.2
    (one.1 :: others.1, others.2)

/-- `verdict_by_id.get(finding_id, …)`: the last one of this id, or a default. -/
def verdictFor (verdicts : List Verdict) (findingId : Text) : Verdict :=
  match verdicts.reverse.find? fun verdict => verdict.findingId = findingId with
  | some verdict => verdict
  | none => ⟨findingId, some "unverified".toList, some "verification not run".toList, none⟩

def verdictHistory (c : Context) (verdict : Verdict) : Event :=
  { action := "verify".toList, time := c.now, runId := some c.runId,
    result := some (verdict.verdict.getD "unverified".toList)
    note := verdict.note.filter fun note => !note.isEmpty }

/-- The record of a new finding. -/
def newFinding (c : Context) (update : Accepted) (verdict : Verdict) : Finding :=
  { toAccepted := update
    status := .opened
    acknowledgement := none
    history := [{ action := "review".toList, time := c.now, runId := some c.runId }, verdictHistory c verdict]
    firstSeenAt := some c.now
    lastSeenAt := some c.now
    triagedAt := none
    ackTransferredFrom := none
    ackTransferredTo := none }

/-- The loop over the ids of new findings. -/
def mergeNew (c : Context) (verdicts : List Verdict) (seen : List Text) : List Text → Summary → List Finding × Summary
  | [], s => ([], s)
  | findingId :: rest, s =>
    match c.returned.lookup findingId with
    | none => mergeNew c verdicts seen rest s
    | some update =>
      if findingId ∈ seen then mergeNew c verdicts seen rest s
      else
        let verdict := verdictFor verdicts findingId
        if verdict.verdict = some "refuted".toList then
          mergeNew c verdicts seen rest
            { s with refuted := s.refuted ++ [⟨findingId, update.title, verdict.refutation⟩] }
        else
          let unverified := if verdict.verdict = some "unverified".toList || verdict.verdict = some "uncertain".toList then
            s.unverified ++ [findingId] else s.unverified
          let others := mergeNew c verdicts seen rest { s with new := s.new ++ [findingId], unverified := unverified }
          (newFinding c update verdict :: others.1, others.2)

/-- The stored findings, with the imported priors in a review. -/
def storedFindings (mode : Mode) (existing : Document) (validated : Validated) : List Finding :=
  match mode with
  | .review => existing.findings ++ validated.importedPriors
  | .revalidate => existing.findings

/-- The ids of new findings: those of imported priors too, in a revalidation. -/
def newFindingIds (mode : Mode) (validated : Validated) : List Text :=
  match mode with
  | .review => validated.newFindingIds
  | .revalidate => validated.newFindingIds ++ sortedTexts (validated.importedPriors.map (·.findingId))

def recurringFindingIds (mode : Mode) (validated : Validated) : List Text :=
  match mode with
  | .review => validated.recurringFindingIds
  | .revalidate => validated.recurringFindingIds.filter fun findingId =>
    findingId ∉ validated.importedPriors.map (·.findingId)

def MergeInput.targets (i : MergeInput) : List Text := i.targetFindingIds.getD []

/-- The recurring findings that a revalidation does not look for. -/
def outOfScope (i : MergeInput) (validated : Validated) : List Text :=
  match i.mode with
  | .review => []
  | .revalidate => (recurringFindingIds i.mode validated).filter fun findingId => findingId ∉ i.targets

def returned (i : MergeInput) (validated : Validated) : Table Text Accepted :=
  Table.collect ((validated.findings.filter fun finding => finding.findingId ∉ outOfScope i validated).map fun finding =>
    (finding.findingId, finding))

def mergeContext (i : MergeInput) (validated : Validated) : Context :=
  ⟨i.mode, i.now, i.runId, i.targets, validated.supersededPriors, returned i validated⟩

def mergeDocument (i : MergeInput) (existing : Document) (validated : Validated) : Except Text (Document × Summary) :=
  if validated.featureId ≠ i.featureId then .error "validated feature_id does not match feature metadata".toList
  else if i.mode = .revalidate && i.targetFindingIds.isNone then
    .error "revalidation requires target finding IDs".toList
  else
    let findings := storedFindings i.mode existing validated
    let unknownTargets := i.targets.filter fun findingId => findingId ∉ findings.map (·.findingId)
    if i.mode = .revalidate && !unknownTargets.isEmpty then
      .error ("revalidation target IDs are not in the findings document: ".toList ++
        List.intercalate ", ".toList (sortedTexts unknownTargets))
    else
      let c := mergeContext i validated
      let summary : Summary := ⟨[], [], [], [], sortedTexts (outOfScope i validated), [], [], validated.evidenceRejected,
        [], validated.ackTransferDiagnostics⟩
      let merged := mergePriors c findings summary
      let added := mergeNew c i.verdicts (seenPriorIds c findings) (newFindingIds i.mode validated) merged.2
      .ok ({ existing with
        featureId := some i.featureId
        findings := merged.1 ++ added.1
        reviewedAt := some i.now
        reviewedAtSha := if i.mode = .revalidate then existing.reviewedAtSha else i.gitHead
        reviewedState := if i.mode = .revalidate then existing.reviewedState else some i.reviewedState
        ackSweep := added.2.ackSweep }, added.2)

end Review
end CodeSage
