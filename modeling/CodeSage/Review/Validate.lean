import CodeSage.Review.Evidence
import Mathlib.Data.List.Basic

/-!
# CodeSage.Review.Validate

`validate_response`: the candidates of a review response become accepted findings, each with the id of a prior, of
an acknowledgement taken over from another document (an imported prior), or with a new one.

A project is known by what `project_file` finds at a path and by `git ls-files`. The directory of findings is the
list of its documents. The loop of `mint_finding_id` is given a number of rounds; `stuck` is a loop that has not
ended by then.
-/

namespace CodeSage
namespace Review

open Lib

/-- What is at a path: for a file, its text and the digest of its bytes, or the errors of reading it. -/
inductive Source where
  | missing
  | other
  | file (text digest : Except Text Text)

def Source.isMissing : Source → Bool
  | .missing => true
  | _ => false

structure Project where
  /-- `none` for a path that leads out of the project -/
  source : Text → Option Source
  /-- `none` when the command fails -/
  lsFiles : Option (List Text)

def projectFile (p : Project) (path : Text) : Except Text Source :=
  if path.isEmpty then .error "finding file path is empty".toList
  else if path.head? = some '/' then .error ("finding file path must be relative: ".toList ++ path)
  else
    match p.source path with
    | none => .error ("finding file escapes project: ".toList ++ path)
    | some source => .ok source

def fileContentDigest (p : Project) (path : Text) : Except Text Text := do
  match ← projectFile p path with
  | .file _ digest => return "sha256:".toList ++ (← digest)
  | _ => return "missing".toList

def cleanMagnitude (value : Json) : Except Text Magnitude :=
  match value with
  | .obj fields =>
    match getField fields "metric".toList with
    | .str metric =>
      if named : hasText metric = true then
        match getField fields "value".toList with
        | .int n =>
          if nonneg : (0 : Rat) ≤ n then .ok ⟨metric, n, named, nonneg⟩
          else .error "magnitude value must be finite and nonnegative".toList
        | .float x =>
          if nonneg : 0 ≤ x then .ok ⟨metric, x, named, nonneg⟩
          else .error "magnitude value must be finite and nonnegative".toList
        | _ => .error "magnitude value must be finite and nonnegative".toList
      else .error "magnitude metric must be a nonempty string".toList
    | _ => .error "magnitude metric must be a nonempty string".toList
  | _ => .error "magnitude must contain metric and value".toList

section Clean

variable (h : Host)

/-- `value in names`, for a set of texts: the name, or the message. -/
def member {α : Type} (name : α → Text) (names : List α) (message : Text) (value : Json) : Except Text α :=
  match value with
  | .arr _ => .error "unhashable type: 'list'".toList
  | .obj _ => .error "unhashable type: 'dict'".toList
  | .str text =>
    match names.find? fun a => name a = text with
    | some a => .ok a
    | none => .error (message ++ text)
  | value => .error (message ++ h.str value)

/-- A text that is not blank. -/
def nonblank (message : Text) : Json → Except Text Text
  | .str text => if hasText text then .ok text else .error message
  | _ => .error message

/-- An error that the loop of `validate_response` catches. -/
def caught {α : Type} : Except Text α → Except Raised α
  | .ok a => .ok a
  | .error message => .error (.caught message)

/-- A `file` that is not a text is refused by `project_file` like an empty one. -/
def cleanFinding (fields : List (Text × Json)) : Except Raised Candidate := do
  let magnitude ←
    match fields.lookup "magnitude".toList with
    | some value => caught ((cleanMagnitude value).map some)
    | none => .ok none
  let severity ← caught (member h Severity.text [.low, .medium, .high] "invalid severity: ".toList
    (getField fields "severity".toList))
  let category ← caught (member h Category.text [.bug, .security, .perf, .maintainability] "invalid category: ".toList
    (getField fields "category".toList))
  let title ← caught (nonblank "finding title is empty".toList (getField fields "title".toList))
  let summary ← caught (nonblank "finding summary is empty".toList (getField fields "summary".toList))
  let evidence ←
    match getField fields "evidence".toList with
    | .arr items => .ok items
    | _ => .error (.caught "finding evidence must be an array".toList)
  let line ← h.int (getField fields "line".toList)
  if line < 1 then .error (.caught "finding line must be positive".toList)
  else
    let file :=
      match getField fields "file".toList with
      | .str file => file
      | _ => []
    return ⟨file, line, severity, category, title, summary, evidence, getField fields "suggested_fix".toList, magnitude,
      none⟩

/-- A candidate of the response, cleaned and anchored in its source. -/
def checkCandidate (p : Project) (fields : List (Text × Json)) : Except Raised Candidate := do
  let finding ← cleanFinding h fields
  match ← caught (projectFile p finding.file) with
  | .file text _ =>
    match evidenceMatch h (← caught text) finding.line finding.evidence with
    | none => .error (.caught "evidence has no nearby block or unique substantive line".toList)
    | some matchedLine =>
      let digest ← caught (fileContentDigest p finding.file)
      return { finding with line := matchedLine, contentDigest := some digest }
  | _ => .error (.caught ("finding file does not exist: ".toList ++ finding.file))

end Clean

section Priors

/-- An acknowledged prior whose file is gone. -/
def lostAck (p : Project) (prior : Finding) : Except Text Bool :=
  if prior.acknowledgement.isSome then (projectFile p prior.file).map Source.isMissing else .ok false

/-- The listed files with their digests; `none` when the walk over them is given up. -/
def listedDigests (p : Project) : List Text → Option (List (Text × Text))
  | [] => some []
  | path :: paths =>
    match projectFile p path with
    | .error _ => none
    | .ok .missing => listedDigests p paths
    | .ok .other => none
    | .ok (.file _ _) =>
      match fileContentDigest p path with
      | .error _ => none
      | .ok digest => (listedDigests p paths).map ((digest, path) :: ·)

/-- The file of a lost acknowledgement, if just one listed file has its content. -/
def renamePrior (p : Project) (byDigest : List (Text × Text)) (prior : Finding) : Finding :=
  match lostAck p prior with
  | .ok true =>
    match byDigest.filter fun listed => some listed.1 = prior.contentDigest with
    | [listed] => { prior with file := listed.2 }
    | _ => prior
  | _ => prior

def renamePriors (p : Project) (priors : List Finding) : Except Text (List Finding) := do
  let candidates ← priors.filterM (lostAck p)
  if candidates.isEmpty then return priors
  match p.lsFiles with
  | none => return priors
  | some paths =>
    match listedDigests p ((paths.filter fun path => !path.isEmpty).dedup) with
    | none => return priors
    | some byDigest => return priors.map (renamePrior p byDigest)

/-- `transferred_acknowledgements`, at one key: where the acknowledgement of a finding has gone. -/
def transferredTo (documents : List Document) (key : Origin) : List Origin :=
  documents.flatMap fun document => document.findings.filterMap fun finding =>
    if finding.ackTransferredFrom = some key then some ⟨document.featureId, finding.findingId⟩ else none

/-- An acknowledgement of another document that could be taken over. -/
def isForeignAck (p : Project) (documents : List Document) (document : Document) (finding : Finding) :
    Except Text Bool :=
  if finding.acknowledgement.isSome && (finding.status = .falsePositive || finding.status = .wontFix)
      && (transferredTo documents ⟨document.featureId, finding.findingId⟩).isEmpty then
    (projectFile p finding.file).map Source.isMissing
  else .ok false

def foreignOf (p : Project) (documents : List Document) (document : Document) : Except Text (List Finding) := do
  let findings ← document.findings.filterM (isForeignAck p documents document)
  return findings.map fun finding =>
    { finding with ackTransferredFrom := some ⟨document.featureId, finding.findingId⟩ }

def foreignAckPriors (p : Project) (documents : List Document) (featureId : Text) : Except Text (List Finding) := do
  let others := documents.filter fun document => document.featureId ≠ some featureId
  renamePriors p (← others.mapM (foreignOf p documents)).flatten

end Priors

section Reviewed

def mustReadPaths (value : Json) : Except Text (List Text) :=
  let paths := match value with
    | .obj fields => getField fields "must_read".toList
    | value => value
  match paths with
  | .arr items => do
    let texts ← items.mapM fun item =>
      match item with
      | .str path => if path.isEmpty then .error "must-read path is empty or invalid".toList else .ok path
      | _ => .error "must-read path is empty or invalid".toList
    return texts.reverse.dedup.reverse
  | _ => .error "must-read input must be an array or an object with must_read".toList

def reviewedPath (p : Project) (reviewed : List Text) (path : Json) : Except Text (List Text) := do
  let text := match path with
    | .str text => text
    | _ => []
  match ← projectFile p text with
  | .file _ _ => return if text ∈ reviewed then reviewed else reviewed ++ [text]
  | _ => .error ("reviewed file does not exist: ".toList ++ text)

/-- A `must_read` of `null` is none. -/
def validateReviewedFiles (p : Project) (response : List (Text × Json)) (mustRead : Json) : Except Text (List Text) :=
  match getField response "reviewed_files".toList, mustRead with
  | .null, .null => .ok []
  | .arr paths, mustRead => do
    let reviewed ← paths.foldlM (reviewedPath p) []
    match mustRead with
    | .null => return reviewed
    | mustRead =>
      let missing := (← mustReadPaths mustRead).filter fun path => path ∉ reviewed
      if missing.isEmpty then return reviewed
      else .error ("missing required reviewed files: ".toList ++ List.intercalate ", ".toList missing)
  | _, _ => .error "response reviewed_files must be an array".toList

end Reviewed

section Scan

/-- How a call ends without a result: with a message, or in a loop that has not ended. -/
inductive Failure where
  | raised (message : Text)
  | stuck

/-- An entry of `evidence_rejected`. -/
structure Rejected where
  file : Json
  title : Json
  reason : Text

structure Validated where
  featureId : Text
  reviewedFiles : List Text
  findings : List Accepted
  newFindingIds : List Text
  recurringFindingIds : List Text
  evidenceRejected : List Rejected
  importedPriors : List Finding
  ackTransferDiagnostics : List Diagnostic
  supersededPriors : List (Text × List Origin)

/-- What the loop over the response reads. -/
structure Given where
  host : Host
  project : Project
  featureId : Text
  priors : List Finding
  occupied : List Text
  rounds : Nat

/-- What it carries along. -/
structure Scan where
  foreignPriors : List Finding
  importedPriors : List Finding
  transferDiagnostics : List Diagnostic
  usedIds : List Text
  findings : List Accepted
  newIds : List Text
  recurringIds : List Text
  rejected : List Rejected

def mintFrom (h : Host) (base : Text) (occupied : List Text) (suffix : Nat) : Nat → Option Text
  | 0 => none
  | rounds + 1 =>
    let material := if suffix = 1 then base else base ++ '|' :: decimal suffix
    let candidate := "fnd_".toList ++ (h.sha256 material).take 8
    if candidate ∈ occupied then mintFrom h base occupied (suffix + 1) rounds else some candidate

def mintFindingId (g : Given) (finding : Candidate) (usedIds : List Text) : Option Text :=
  mintFrom g.host (g.featureId ++ '|' :: finding.file ++ '|' :: finding.category.text ++ '|' ::
    decimal finding.line.toNat) (g.occupied ++ usedIds) 1 g.rounds

/-- The magnitude of two candidates that are the same. -/
def joinMagnitude (previous incoming : Option Magnitude) : Option Magnitude :=
  match previous, incoming with
  | some previous, some incoming =>
    if previous.metric = incoming.metric then
      if previous.value < incoming.value then some incoming else some previous
    else none
  | _, _ => none

/-- The accepted findings with a duplicate folded into the first that is the same. -/
def foldDuplicate (h : Host) (finding : Candidate) : List Accepted → Option (List Accepted)
  | [] => none
  | accepted :: rest =>
    if sameCandidate h finding accepted.toCandidate then
      some ({ accepted with magnitude := joinMagnitude accepted.magnitude finding.magnitude } :: rest)
    else (foldDuplicate h finding rest).map (accepted :: ·)

def Scan.reject (s : Scan) (file title : Json) (reason : Text) : Scan :=
  { s with rejected := s.rejected ++ [⟨file, title, reason⟩] }

/-- A finding with the id of a prior. -/
def Scan.recur (s : Scan) (finding : Candidate) (findingId : Text) : Scan :=
  { s with
    findings := s.findings ++ [⟨finding, findingId⟩]
    recurringIds := s.recurringIds ++ [findingId]
    usedIds := s.usedIds ++ [findingId] }

def Scan.add (s : Scan) (finding : Candidate) (findingId : Text) : Scan :=
  { s with
    findings := s.findings ++ [⟨finding, findingId⟩]
    newIds := s.newIds ++ [findingId]
    usedIds := s.usedIds ++ [findingId] }

/-- The copy of a foreign prior under an id of this document; `remove` takes the first that is equal, and those before
it do not match. -/
def Scan.takeOver (s : Scan) (matching : Finding → Bool) (foreign : Finding) (findingId : Text) : Scan :=
  { s with
    importedPriors := s.importedPriors ++ [{ foreign with findingId := findingId }]
    foreignPriors := s.foreignPriors.eraseP matching }

/-- A lost acknowledgement that would match if the file had kept its name. -/
def renameNotProven (g : Given) (finding : Candidate) (prior : Finding) : Except Text (Option Diagnostic) := do
  if ← lostAck g.project prior then
    if (matchPrior g.host { finding with file := prior.file } [prior] []).isSome then
      return some { findingId := some prior.findingId, kind := "stale".toList, reason := "rename-not-proven".toList }
    else return none
  else return none

/-- The id of a candidate that is not a duplicate. -/
def identify (g : Given) (s : Scan) (finding : Candidate) : Except Failure Scan :=
  match matchPrior g.host finding g.priors s.usedIds with
  | some prior => .ok (s.recur finding prior.findingId)
  | none =>
    let matching := fun foreign => (matchPrior g.host finding [foreign] []).isSome
    match s.foreignPriors.filter matching with
    | [foreign] =>
      match mintFindingId g finding s.usedIds with
      | some findingId => .ok ((s.takeOver matching foreign findingId).recur finding findingId)
      | none => .error .stuck
    | matches_ =>
      match (g.priors ++ s.foreignPriors).mapM (renameNotProven g finding) with
      | .error message => .error (.raised message)
      | .ok stale =>
        let ambiguous : List Diagnostic := if 1 < matches_.length then
          [{ findingId := none, file := some finding.file, kind := "stale".toList,
             reason := "ambiguous-acknowledgement".toList }] else []
        match mintFindingId g finding s.usedIds with
        | some findingId =>
          let transferDiagnostics := s.transferDiagnostics ++ stale.reduceOption ++ ambiguous
          .ok ({ s with transferDiagnostics := transferDiagnostics }.add finding findingId)
        | none => .error .stuck

def scanFinding (g : Given) (s : Scan) (rawFinding : Json) : Except Failure Scan :=
  match rawFinding with
  | .obj fields =>
    match checkCandidate g.host g.project fields with
    | .error (.caught reason) => .ok (s.reject (getField fields "file".toList) (getField fields "title".toList) reason)
    | .error (.other message) => .error (.raised message)
    | .ok finding =>
      match foldDuplicate g.host finding s.findings with
      | some findings =>
        .ok ({ s with findings := findings }.reject (.str finding.file) (.str finding.title)
          "duplicate candidate in response".toList)
      | none => identify g s finding
  | _ => .ok (s.reject .null .null "finding must be an object".toList)

/-- An error of a part that stops the call. -/
def raising {α : Type} : Except Text α → Except Failure α
  | .ok a => .ok a
  | .error message => .error (.raised message)

/-- The plan is for another feature. -/
def planMismatch (mustRead : Json) (featureId : Text) : Bool :=
  match mustRead with
  | .obj fields =>
    match fields.lookup "feature_id".toList with
    | some (.str planned) => planned ≠ featureId
    | some _ => true
    | none => false
  | _ => false

/-- The findings of the document whose acknowledgement another document has taken over. -/
def superseded (documents : List Document) (featureId : Text) (existing : Document) : List (Text × List Origin) :=
  existing.findings.filterMap fun finding =>
    let destinations := transferredTo documents ⟨some featureId, finding.findingId⟩
    if destinations.isEmpty then none else some (finding.findingId, destinations)

/-- `response["feature_id"]` -/
def responseFeature (response : List (Text × Json)) : Except Failure Text :=
  match getField response "feature_id".toList with
  | .str featureId =>
    if featureId.take 5 = "feat_".toList then .ok featureId
    else .error (.raised "response feature_id is missing or invalid".toList)
  | _ => .error (.raised "response feature_id is missing or invalid".toList)

/-- `raw_findings`; a response without the key has none. -/
def rawFindings (response : List (Text × Json)) : Except Failure (List Json) :=
  match response.lookup "findings".toList with
  | none => .ok []
  | some (.arr items) => .ok items
  | some _ => .error (.raised "response findings must be an array".toList)

def validateResponse (h : Host) (p : Project) (documents : List Document) (rounds : Nat) (response : Json)
    (existing : Document) (mustRead : Json) : Except Failure Validated :=
  match response with
  | .obj fields => do
    let featureId ← responseFeature fields
    if planMismatch mustRead featureId then
      .error (.raised "must-read plan feature_id does not match response".toList)
    else
      let reviewedFiles ← raising (validateReviewedFiles p fields mustRead)
      let items ← rawFindings fields
      let gone := superseded documents featureId existing
      let kept := existing.findings.filter fun finding => finding.findingId ∉ gone.map Prod.fst
      let priors ← raising (renamePriors p kept)
      let foreignPriors ← raising (foreignAckPriors p documents featureId)
      let scan ← items.foldlM (scanFinding ⟨h, p, featureId, priors, existing.ids, rounds⟩)
        ⟨foreignPriors, [], [], [], [], [], [], []⟩
      return ⟨featureId, reviewedFiles, scan.findings, scan.newIds, scan.recurringIds, scan.rejected,
        scan.importedPriors, scan.transferDiagnostics, gone⟩
  | _ => .error (.raised "review response must be an object".toList)

end Scan

end Review
end CodeSage
