import CodeSage.Graph.ImportPaths
import CodeSage.Lib.Ranking
import Mathlib.Algebra.Order.Field.Rat
import Mathlib.Data.List.AList

/-!
# CodeSage.Graph.MentionAnchor

The lift of search results that the query names, `apply_mention_anchor` (`crates/graph/src/search.rs`). Scores
are rational numbers.

`Host` holds what the standard library decides by tables of its own: the alphabetic and the alphanumeric
characters, and the text of a number in a reason.
-/

namespace CodeSage
namespace Graph
namespace MentionAnchor

open Lib ImportPaths

structure Host where
  isAlphabetic : Char → Bool
  isAlphanumeric : Char → Bool
  showScore : ℚ → Text

/-- `SearchTrace` without signals -/
structure SearchTrace where
  stage : Text
  before : Option ℚ
  after : ℚ
  reason : Text
deriving DecidableEq

structure SymbolSummary where
  name : Text
  qualifiedName : Text
deriving DecidableEq, Repr

structure SearchResult where
  filePath : Text
  content : Text
  startLine : UInt32
  endLine : UInt32
  score : ℚ
  symbols : List SymbolSummary := []
  trace : Option (List SearchTrace) := none
deriving DecidableEq

inductive QueryMention where
  | path (path : Text)
  | symbol (owner member : Text) (stemFallback : Bool)
deriving DecidableEq, Repr

def MENTION_TOP_GAP_FRAC : ℚ := 5 / 100
def MENTION_MAX_FILES : Nat := 4
def MENTION_MAX_CHUNKS_PER_FILE : Nat := 3
def MENTION_MAX_ANCHORED : Nat := 5

def MENTION_NON_CODE_EXTENSIONS : List Text :=
  ["toml", "md", "json", "yaml", "yml", "lock", "txt", "graphql", "proto", "sql", "csv", "xml", "html",
    "css"].map String.toList

def MENTION_DOTTED_MEMBER_AMBIGUOUS_LEN : Nat := 4

def MENTION_TRIM_LEADING : List Char := ['`', '\'', '"', '(', '[', '{', '<', '*']

def MENTION_TRIM_TRAILING : List Char :=
  ['`', '\'', '"', '(', ')', ']', '}', '>', ',', ';', ':', '.', '!', '?', '*']

section Mentions

/-- One `:digits` group less. -/
def stripLineGroup (token : Text) : Option Text :=
  (rsplitOnce ':' token).bind fun r => if !r.2.isEmpty && r.2.all Char.isDigit then some r.1 else none

def stripLineSuffix (token : Text) : Text :=
  match stripLineGroup token with
  | none => token
  | some once => (stripLineGroup once).getD once

def pathMention (token : Text) : Option Text :=
  let t := stripLineSuffix token
  let t := (t.dropPrefix? "./".toList).getD t
  if t.isEmpty || t.getLast? == some '/' || t.contains '\\' || decide ("://".toList <:+: t) || hasPathSep t then none
  else if t.contains '/' && (languageOf t).isSome then some t
  else none

variable (host : Host)

def isMentionSegment (s : Text) : Bool :=
  match s with
  | [] => false
  | first :: rest =>
    2 ≤ s.length && (host.isAlphabetic first || first == '_') && rest.all fun c => host.isAlphanumeric c || c == '_'

/-- `token.rsplit_once("::")` -/
def rsplitPath (token : Text) : Option (Text × Text) :=
  (afterLast "::".toList token).map fun item => (token.take (token.length - item.length - 2), item)

/-- `owner.rsplit(['.', ':', '\\']).next()` -/
def innermostOwner (owner : Text) : Text := owner.rtakeWhile fun c => !(['.', ':', '\\'].contains c)

/-- The owner, the member and `stem_fallback` of a token. -/
def splitSymbol (token : Text) : Option (Text × Text × Bool) :=
  match rsplitPath token with
  | some (o, m) => some (o, m, true)
  | none =>
    match rsplitOnce '\\' token with
    | some (o, m) => some (o, m, true)
    | none =>
      match rsplitOnce '.' token with
      | none => none
      | some (o, m) =>
        if MENTION_NON_CODE_EXTENSIONS.contains m then none
        else if m.length ≤ MENTION_DOTTED_MEMBER_AMBIGUOUS_LEN && m.all Char.isLower then none
        else some (o, m, false)

def symbolMention (token : Text) : Option QueryMention :=
  (splitSymbol token).bind fun (owner, member, stemFallback) =>
    let owner := innermostOwner owner
    if isMentionSegment host owner && isMentionSegment host member then some (.symbol owner member stemFallback)
    else none

def mentionOf (raw : Text) : Option QueryMention :=
  let token := (raw.dropWhile MENTION_TRIM_LEADING.contains).rdropWhile MENTION_TRIM_TRAILING.contains
  if token.isEmpty then none
  else
    match pathMention token with
    | some path => some (.path path)
    | none => symbolMention host token

/-- `split_whitespace` -/
def words (query : Text) : List Text := (query.splitOnP isWhitespace).filter fun w => !w.isEmpty

def extractQueryMentions (query : Text) : List QueryMention :=
  (words query).foldl (fun out raw =>
    match mentionOf host raw with
    | none => out
    | some mention => if out.contains mention then out else out ++ [mention]) []

end Mentions

section Matches

def pathMatchesMention (filePath mention : Text) : Bool :=
  let candidate := (Segments.split filePath).reverse
  let wanted := (Segments.split mention).reverse.filter fun c => !c.isEmpty && c != ['.']
  if wanted.length < 2 || candidate.length < 2 then false
  else if wanted.length ≤ candidate.length then (wanted.zip candidate).all fun p => p.1 == p.2
  else (candidate.zip wanted).all fun p => p.1 == p.2

def qualifiedNameSegments (qn : Text) : List Text :=
  (qn.splitOnP (['.', ':', '\\'].contains ·)).filter fun s => !s.isEmpty

/-- `Path::file_stem` -/
def fileStem (path : Text) : Option Text :=
  let name := fileNameOf path
  if name.isEmpty || name == ['.', '.'] then none
  else
    match rsplitOnce '.' name with
    | some (stem, _) => if stem.isEmpty then some name else some stem
    | none => some name

def symbolsMatchMention (result : SearchResult) (owner member : Text) (stemFallback : Bool) : Bool :=
  let members := result.symbols.filter fun s => s.name == member
  if members.isEmpty then false
  else
    let qualified := members.any fun s =>
      match (qualifiedNameSegments s.qualifiedName).reverse with
      | last :: above :: _ => last == member && above == owner
      | _ => false
    qualified || (stemFallback && fileStem result.filePath == some owner)

/-- What a mention asks of a row. -/
def matchesMention (result : SearchResult) : QueryMention → Bool
  | .path path => pathMatchesMention result.filePath path
  | .symbol owner member stemFallback => symbolsMatchMention result owner member stemFallback

end Matches

structure AnchorLedger where
  anchored : List Nat
  perFile : AList fun _ : Text => Nat

def AnchorLedger.tryAnchor (ledger : AnchorLedger) (idx : Nat) (filePath : Text) : AnchorLedger :=
  if MENTION_MAX_ANCHORED ≤ ledger.anchored.length || ledger.anchored.contains idx then ledger
  else
    let count := (ledger.perFile.lookup filePath).getD 0
    if count = 0 && MENTION_MAX_FILES ≤ ledger.perFile.keys.length then ledger
    else if MENTION_MAX_CHUNKS_PER_FILE ≤ count then ledger
    else ⟨ledger.anchored ++ [idx], ledger.perFile.insert filePath (count + 1)⟩

/-- One mention of the query. -/
def anchorMention (window : List SearchResult) (ledger : AnchorLedger) (mention : QueryMention) : AnchorLedger :=
  let hits := window.zipIdx.filter fun p => matchesMention p.1 mention
  match mention with
  | .path _ =>
    if hits.isEmpty then ledger
    else if 1 < (hits.map fun p => p.1.filePath).dedup.length then ledger
    else hits.foldl (fun ledger p => ledger.tryAnchor p.2 p.1.filePath) ledger
  | .symbol _ _ _ =>
    window.zipIdx.foldl (fun ledger p =>
      if MENTION_MAX_ANCHORED ≤ ledger.anchored.length then ledger
      else if matchesMention p.1 mention then ledger.tryAnchor p.2 p.1.filePath
      else ledger) ledger

def anchorAll (window : List SearchResult) (mentions : List QueryMention) : AnchorLedger :=
  mentions.foldl (anchorMention window) ⟨[], ∅⟩

/-- `record_score` -/
def recordScore (result : SearchResult) (stage : Text) (before : ℚ) (reason : Text) : SearchResult :=
  { result with trace := result.trace.map (· ++ [⟨stage, some before, result.score, reason⟩]) }

def liftReason (host : Host) (slot : Nat) (target : ℚ) : Text :=
  "Explicit query mention, anchor slot ".toList ++ decimal (slot + 1) ++ ", minimum score ".toList ++
    host.showScore target

/-- One anchored row. -/
def lift (host : Host) (top : ℚ) (slot : Nat) (result : SearchResult) : SearchResult :=
  let target := top * (1 - MENTION_TOP_GAP_FRAC) ^ (slot + 1)
  let raised := if result.score < target then { result with score := target } else result
  recordScore raised "mention_anchor".toList result.score (liftReason host slot target)

/-- The rows the loop over the anchored rows leaves. -/
def liftAll (host : Host) (top : ℚ) (anchored : List Nat) (results : List SearchResult) : List SearchResult :=
  anchored.zipIdx.foldl (fun rows p => rows.modify p.1 (lift host top p.2)) results

/-- Some row is raised. -/
def lifted (top : ℚ) (anchored : List Nat) (results : List SearchResult) : Bool :=
  anchored.zipIdx.any fun p =>
    (results[p.1]?).any fun r => r.score < top * (1 - MENTION_TOP_GAP_FRAC) ^ (p.2 + 1)

/-- `b.score.partial_cmp(&a.score)` -/
def scoreLe (a b : SearchResult) : Bool := decide (b.score ≤ a.score)

/-- `window.iter().map(|r| r.score).fold(f32::MIN, f32::max)` of a window that is not empty -/
def topScore (window : List SearchResult) : ℚ :=
  match window.map (·.score) with
  | [] => 0
  | s :: ss => ss.foldl max s

/-- The rows that are anchored. -/
def anchoredRows (host : Host) (results : List SearchResult) (query : Text) (scanLimit offset : Nat) (enabled : Bool) :
    List Nat :=
  if !enabled || offset != 0 || results.isEmpty then []
  else (anchorAll (results.take scanLimit) (extractQueryMentions host query)).anchored

def applyMentionAnchor (host : Host) (results : List SearchResult) (query : Text) (scanLimit offset : Nat)
    (enabled : Bool) : List SearchResult :=
  if !enabled || offset != 0 || results.isEmpty then results
  else
    let mentions := extractQueryMentions host query
    if mentions.isEmpty then results
    else
      let window := results.take scanLimit
      if window.isEmpty then results
      else
        let anchored := (anchorAll window mentions).anchored
        if anchored.isEmpty then results
        else
          let anchored := anchored.mergeSort (· ≤ ·)
          let top := topScore window
          let rows := liftAll host top anchored results
          if lifted top anchored results then rows.mergeSort scoreLe else rows

end MentionAnchor
end Graph
end CodeSage
