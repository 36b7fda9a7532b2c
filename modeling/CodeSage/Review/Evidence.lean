import CodeSage.Review.Document

/-!
# CodeSage.Review.Evidence

How `codesage-review-state` compares findings: the quoted evidence against a source (`evidence_match`), and a
finding against another one (`same_candidate`, `match_prior`). A similarity of titles is the quotient of two
numbers of words, compared with four fifths.
-/

namespace CodeSage
namespace Review

open Lib

/-- `str.split()` -/
def words (text : Text) : List Text := (text.splitOnP isSpace).filter fun word => !word.isEmpty

def normalizeLine (text : Text) : Text := List.intercalate [' '] (words text)

/-- A boundary of `str.splitlines` -/
def isLineBreak (c : Char) : Bool :=
  (0x0A ≤ c.toNat && c.toNat ≤ 0x0D) || (0x1C ≤ c.toNat && c.toNat ≤ 0x1E) || c.toNat = 0x85 || c.toNat = 0x2028
    || c.toNat = 0x2029

/-- `str.splitlines`, with what has been read of the line, backwards. -/
def splitLinesFrom (line : Text) : Text → List Text
  | [] => if line.isEmpty then [] else [line.reverse]
  | '\r' :: '\n' :: rest => line.reverse :: splitLinesFrom [] rest
  | c :: rest => if isLineBreak c then line.reverse :: splitLinesFrom [] rest else splitLinesFrom (c :: line) rest

def splitLines (text : Text) : List Text := splitLinesFrom [] text

def evidenceLines (evidence : List Json) : List Text :=
  evidence.flatMap fun item =>
    match item with
    | .str text => ((splitLines text).map normalizeLine).filter fun line => !line.isEmpty
    | _ => []

section Match

variable (h : Host)

def substantive (line : Text) (minimum : Nat) : Bool := decide (minimum ≤ line.length) && line.any h.isAlnum

def blockEvidenceLine (line : Text) : Bool := line.any h.isAlnum

def evidenceFingerprint (evidence : List Json) : Option Text :=
  let lines := (evidenceLines evidence).filter (blockEvidenceLine h)
  if lines.isEmpty then none else some (h.sha256 (List.intercalate ['\n'] lines))

/-- Two quoted lines in a row that are two nonblank lines of the window in a row: the number of the first. -/
def blockMatches (quoted : List Text) (numbered : List (Nat × Text)) : List Nat :=
  (quoted.zip quoted.tail).flatMap fun pair =>
    if !blockEvidenceLine h pair.1 || !blockEvidenceLine h pair.2 then []
    else (numbered.zip numbered.tail).filterMap fun at_ =>
      if at_.1.2 = pair.1 && at_.2.2 = pair.2 then some at_.1.1 else none

/-- A quoted line of at least 40 characters that is one line of the source, in the window: its number. -/
def uniqueMatches (quoted : List Text) (source : List (Nat × Text)) (lower upper : Nat) : List Nat :=
  quoted.flatMap fun line =>
    if !substantive h line 40 then []
    else
      match source.filterMap fun numbered => if numbered.2 = line then some numbered.1 else none with
      | [position] => if lower ≤ position && position ≤ upper then [position] else []
      | _ => []

/-- `abs(line - cited_line)` -/
def distance (a b : Nat) : Nat := (a - b) + (b - a)

def evidenceMatch (source : Text) (citedLine : Int) (evidence : List Json) : Option Nat :=
  let normalizedSource := (splitLines source).map normalizeLine
  let quoted := evidenceLines evidence
  let cited := (max citedLine 1).toNat
  let lower := max (cited - 15) 1
  let upper := min (cited + 15) normalizedSource.length
  let allNumbered := normalizedSource.zipIdx.map fun line => (line.2 + 1, line.1)
  let numbered := allNumbered.filter fun line => !line.2.isEmpty && lower ≤ line.1 && line.1 ≤ upper
  firstBest (fun a b => distance a cited < distance b cited || (distance a cited = distance b cited && a < b))
    (blockMatches h quoted numbered ++ uniqueMatches h quoted allNumbered lower upper)

/-- The words `[a-z0-9]+` of a title. -/
def titleTokens (title : Text) : List Text :=
  let tokenChar := fun c : Char => ('a' ≤ c && c ≤ 'z') || ('0' ≤ c && c ≤ '9')
  (((h.lower title).splitOnP fun c => !tokenChar c).filter fun token => !token.isEmpty).dedup

def titleSimilarity (left right : Text) : Rat :=
  let leftTokens := titleTokens h left
  let rightTokens := titleTokens h right
  if leftTokens.isEmpty || rightTokens.isEmpty then 0
  else ((leftTokens.filter (· ∈ rightTokens)).length : Rat) / ((leftTokens ++ rightTokens).dedup.length : Rat)

/-- `abs(int(left["line"]) - int(right["line"]))` -/
def lineGap (left right : Candidate) : Nat := (left.line - right.line).natAbs

def sameCandidate (left right : Candidate) : Bool :=
  if left.file ≠ right.file || left.category ≠ right.category then false
  else if (evidenceFingerprint h left.evidence).isSome
      && evidenceFingerprint h left.evidence = evidenceFingerprint h right.evidence then true
  else lineGap left right ≤ 10 && (4 / 5 : Rat) ≤ titleSimilarity h left.title right.title

def matchPrior (finding : Candidate) (priors : List Finding) (usedIds : List Text) : Option Finding :=
  let candidates := priors.filter fun prior =>
    !usedIds.contains prior.findingId && prior.file = finding.file && prior.category = finding.category
  let fingerprint := evidenceFingerprint h finding.evidence
  let evidenceMatches := candidates.filter fun prior =>
    fingerprint.isSome && evidenceFingerprint h prior.evidence = fingerprint
  if !evidenceMatches.isEmpty then
    firstBest (fun a b => lineGap a.toCandidate finding < lineGap b.toCandidate finding) evidenceMatches
  else
    let titleMatches := candidates.filter fun prior =>
      lineGap prior.toCandidate finding ≤ 10 && (4 / 5 : Rat) ≤ titleSimilarity h prior.title finding.title
    let similarity := fun prior : Finding => titleSimilarity h prior.title finding.title
    firstBest (fun a b => similarity b < similarity a
      || (similarity a = similarity b && lineGap a.toCandidate finding < lineGap b.toCandidate finding)) titleMatches

/-- A prior that is matched is one of the list that has not been used, of the same file and category. -/
theorem matchPrior_mem {finding : Candidate} {priors : List Finding} {usedIds : List Text} {prior : Finding}
    (hm : matchPrior h finding priors usedIds = some prior) :
    prior ∈ priors ∧ prior.findingId ∉ usedIds ∧ prior.file = finding.file ∧ prior.category = finding.category := by
  have hcandidates : prior ∈ priors.filter fun prior =>
      !usedIds.contains prior.findingId && prior.file = finding.file && prior.category = finding.category := by
    simp only [matchPrior] at hm
    split at hm
    · exact (List.mem_filter.mp (firstBest_mem hm)).1
    · exact (List.mem_filter.mp (firstBest_mem hm)).1
  obtain ⟨hmem, hok⟩ := List.mem_filter.mp hcandidates
  simp only [Bool.and_eq_true, Bool.not_eq_true', decide_eq_true_iff, List.contains_eq_mem, decide_eq_false_iff_not] at hok
  exact ⟨hmem, hok.1.1, hok.1.2, hok.2⟩

end Match

end Review
end CodeSage
