import Mathlib.Algebra.Order.Ring.Int
import CodeSage.Lib.Utf8

/-!
# CodeSage.Embed.Chunk

`chunk_text` (`crates/embed/src/chunk.rs`): a file's text cut into overlapping chunks for the
embedder. Budgets are in characters, positions are byte offsets.

`none` is a panic: a slice or an index out of range, a slice inside a character, or an overflow of a
line number. The loops of `split_recursive` and `match_indices` take their fuel from the length of
the text. `Segment::end` is `stop`.
-/

namespace CodeSage
namespace Embed

open Lib

abbrev Text := List Char

structure ChunkConfig where
  chunkSize : Nat := 1500
  minChunkSize : Nat := 350
  overlap : Nat := 200
  deriving DecidableEq, Repr

structure Chunk where
  text : Text
  startLine : Nat
  endLine : Nat
  startByte : Nat
  endByte : Nat
  deriving DecidableEq, Repr

structure Segment where
  start : Nat
  stop : Nat
  deriving DecidableEq, Repr

def separators : List Text := [['\n', '\n'], ['\n'], ['.', ' '], [' ']]

/-- `text.match_indices(sep)`: the matches from left to right, none overlapping the one before. -/
def matchIndices (sep : Text) : Nat → Nat → Text → List Nat
  | 0, _, _ => []
  | _ + 1, _, [] => []
  | fuel + 1, pos, c :: text =>
    if sep.isPrefixOf (c :: text) then
      pos :: matchIndices sep fuel (pos + Utf8.size sep) ((c :: text).drop sep.length)
    else matchIndices sep fuel (pos + c.utf8Size) text

/-- The loop of `split_keeping_offsets` over the matches, and the part after the last. -/
def partsFrom (len sepLen : Nat) : Nat → List Nat → List Segment
  | start, [] => if start < len then [⟨start, len⟩] else []
  | start, idx :: rest =>
    let stop := idx + sepLen
    if start < stop then ⟨start, stop⟩ :: partsFrom len sepLen stop rest
    else partsFrom len sepLen stop rest

def splitKeepingOffsets (text sep : Text) : List Segment :=
  partsFrom (Utf8.size text) (Utf8.size sep) 0 (matchIndices sep text.length 0 text)

def advanceByChars (text : Text) (pos n : Nat) : Option Nat := do
  let rest ← Utf8.sliceFrom text pos
  return if n < rest.length then pos + Utf8.offset rest n else Utf8.size text

/-- The character-splitting fallback. -/
def splitChars (text : Text) (maxSize : Nat) : Nat → Nat → Option (List Segment)
  | 0, _ => none
  | fuel + 1, pos =>
    if pos < Utf8.size text then do
      let stop ← advanceByChars text pos maxSize
      let more ← splitChars text maxSize fuel stop
      return ⟨pos, stop⟩ :: more
    else some []

/-- The variables of the loop of `split_recursive`. -/
structure Splitting where
  segments : List Segment := []
  currentStart : Nat := 0
  currentEnd : Nat := 0
  currentLen : Nat := 0

/-- `if current_start < current_end { segments.push(..) }` -/
def Splitting.flushed (s : Splitting) : List Segment :=
  if s.currentStart < s.currentEnd then s.segments ++ [⟨s.currentStart, s.currentEnd⟩] else s.segments

/-- One part; `sub` splits a part that is too long by itself. -/
def Splitting.add (text : Text) (maxSize : Nat) (sub : Text → Option (List Segment)) (s : Splitting)
    (part : Segment) : Option Splitting := do
  let partText ← Utf8.slice text part.start part.stop
  let partLen := partText.length
  let candidateLen := if s.currentStart = s.currentEnd then partLen else s.currentLen + partLen
  if candidateLen ≤ maxSize then
    return { s with currentEnd := part.stop, currentLen := candidateLen }
  else if maxSize < partLen then do
    let sub ← sub partText
    return {
      segments := s.flushed ++ sub.map fun p => ⟨part.start + p.start, part.start + p.stop⟩
      currentStart := part.stop
      currentEnd := part.stop
      currentLen := 0 }
  else
    return {
      segments := s.flushed
      currentStart := part.start
      currentEnd := part.stop
      currentLen := partLen }

/-- `split_recursive` from the separator that heads the list on. -/
def splitRecursive (maxSize : Nat) : List Text → Text → Option (List Segment)
  | seps, text =>
    if Utf8.size text ≤ maxSize ∨ text.length ≤ maxSize then some [⟨0, Utf8.size text⟩]
    else
      match seps with
      | [] => splitChars text maxSize (Utf8.size text + 1) 0
      | sep :: seps => do
        let s ← (splitKeepingOffsets text sep).foldlM
          (Splitting.add text maxSize (splitRecursive maxSize seps)) {}
        return s.flushed

def segmentChars (text : Text) (seg : Segment) : Option Nat :=
  (Utf8.slice text seg.start seg.stop).map List.length

/-- One segment of the first pass; `merged` has the last segment first. -/
def mergeStep (text : Text) (minSize maxSize : Nat) (merged : List Segment) (seg : Segment) :
    Option (List Segment) :=
  match merged with
  | [] => some [seg]
  | last :: rest => do
    let lastChars ← segmentChars text last
    let segChars ← segmentChars text seg
    if (lastChars < minSize ∨ segChars < minSize) ∧ lastChars + segChars ≤ maxSize then
      return { last with stop := seg.stop } :: rest
    else return seg :: last :: rest

/-- The second pass: a last segment that is small joins the one before it. -/
def mergeLast (text : Text) (minSize maxSize : Nat) (merged : List Segment) : Option (List Segment) :=
  match merged with
  | last :: prev :: rest => do
    let lastChars ← segmentChars text last
    if lastChars < minSize then do
      let prevChars ← segmentChars text prev
      if prevChars + lastChars ≤ maxSize then return { prev with stop := last.stop } :: rest
      else return merged
    else return merged
  | _ => some merged

def mergeSmallChunks (segments : List Segment) (text : Text) (minSize maxSize : Nat) :
    Option (List Segment) := do
  let merged ← segments.foldlM (mergeStep text minSize maxSize) []
  let merged ← mergeLast text minSize maxSize merged
  return merged.reverse

/-- The loop of `retreat_by_chars` over the bytes before `p`. -/
def retreat (bytes : List UInt8) : Nat → Nat → Option Nat
  | 0, _ => some 0
  | p + 1, 0 => some (p + 1)
  | p + 1, remaining + 1 => do
    let b ← bytes[p]?
    if Utf8.isContinuation b then retreat bytes p (remaining + 1) else retreat bytes p remaining

def retreatByChars (text : Text) (pos n : Nat) : Option Nat :=
  retreat (Utf8.bytes text) (min pos (Utf8.size text)) n

/-- `while !text.is_char_boundary(p) && p > 0` -/
def snapDown (text : Text) : Nat → Nat
  | 0 => 0
  | p + 1 => if Utf8.isBoundary text (p + 1) then p + 1 else snapDown text p

def snapToCharBoundary (text : Text) (pos : Nat) : Nat :=
  if Utf8.size text ≤ pos then Utf8.size text else snapDown text pos

/-- `while !text.is_char_boundary(p) && p < text.len()`, at most `fuel` times. -/
def snapUp (text : Text) : Nat → Nat → Nat
  | 0, p => p
  | fuel + 1, p =>
    if ¬ Utf8.isBoundary text p ∧ p < Utf8.size text then snapUp text fuel (p + 1) else p

def findCharBoundary (text : Text) (pos : Nat) : Nat :=
  if Utf8.size text ≤ pos then Utf8.size text else snapUp text (Utf8.size text - pos) pos

def findLineBoundaryAfter (text : Text) (pos : Nat) : Option Nat :=
  if pos = 0 then some 0
  else do
    let pos := snapToCharBoundary text pos
    let rest ← Utf8.sliceFrom text pos
    match rest.findIdx? (· = '\n') with
    | some k =>
      let nl := pos + Utf8.offset rest k + 1
      return if nl < Utf8.size text then nl else pos
    | none => return pos

/-- `for i in 1..segments.len()`; the ends are never changed, so that the one before is known. -/
def overlapFrom (text : Text) (overlap chunkSize : Nat) : Nat → List Segment → Option (List Segment)
  | _, [] => some []
  | prevEnd, seg :: rest => do
    let targetStart ← retreatByChars text prevEnd overlap
    let newStart ← findLineBoundaryAfter text targetStart
    let minStart ← retreatByChars text seg.stop chunkSize
    let newStart := max newStart minStart
    let rest ← overlapFrom text overlap chunkSize seg.stop rest
    return (if newStart < seg.start then { seg with start := newStart } else seg) :: rest

def applyOverlap (segments : List Segment) (text : Text) (overlap chunkSize : Nat) :
    Option (List Segment) :=
  match segments with
  | first :: second :: rest =>
    if overlap = 0 then some segments
    else (overlapFrom text overlap chunkSize first.stop (second :: rest)).map (first :: ·)
  | _ => some segments

def newlineOffsets (content : Text) : List Nat :=
  ((Utf8.bytes content).zipIdx.filter fun b => b.1 == 10).map Prod.snd

/-- `slice.partition_point(pred)` of a slice whose elements with `pred` come first. -/
def partitionPoint {α : Type} (pred : α → Bool) (slice : List α) : Nat := (slice.takeWhile pred).length

/-- `1 + n as u32`: the conversion truncates, the addition is checked. -/
def lineNumber (n : Nat) : Option Nat :=
  if n % 2 ^ 32 + 1 < 2 ^ 32 then some (n % 2 ^ 32 + 1) else none

def lineAt (newlines : List Nat) (pos : Nat) : Option Nat :=
  lineNumber (partitionPoint (· < pos) newlines)

/-- An integer as `f64`: 53 significant bits, ties to even. -/
def roundF64 (n : Nat) : Nat :=
  if n < 2 ^ 53 then n
  else
    let k := n.log2 - 52
    let q := n / 2 ^ k
    let r := n % 2 ^ k
    (if r > 2 ^ (k - 1) ∨ (r = 2 ^ (k - 1) ∧ q % 2 = 1) then q + 1 else q) * 2 ^ k

/-- `LITERAL_DATA_SHARE`, the `f64` nearest to 0.35, as a multiple of `2 ^ -54`. -/
def literalDataShare : Nat := 6305039478318694

/-- `literal as f64 > LITERAL_DATA_SHARE * text.len() as f64`, both sides times `2 ^ 54`. -/
def isLiteralData (text : Text) : Bool :=
  let literal := (Utf8.bytes text).countP fun b => (48 ≤ b && b ≤ 57) || b == 44
  roundF64 (literalDataShare * roundF64 (Utf8.size text)) < roundF64 literal * 2 ^ 54

/-- The closure of the final `map`. -/
def chunkOf (content : Text) (newlines : List Nat) (seg : Segment) : Option Chunk := do
  let start := snapToCharBoundary content seg.start
  let stop := findCharBoundary content seg.stop
  let startLine ← lineAt newlines start
  let countEnd ←
    if stop > start then do
      let b ← (Utf8.bytes content)[stop - 1]?
      pure (if b = 10 then stop - 1 else stop)
    else pure stop
  let endLine ← lineAt newlines countEnd
  let text ← Utf8.slice content start stop
  return { text, startLine, endLine, startByte := start, endByte := stop }

def chunkText (content : Text) (config : ChunkConfig) : Option (List Chunk) :=
  if content = [] then some []
  else do
    let chunkSize := max config.chunkSize 1
    let raw ← splitRecursive chunkSize separators content
    let merged ← mergeSmallChunks raw content config.minChunkSize chunkSize
    let merged ← applyOverlap merged content config.overlap chunkSize
    let chunks ← merged.mapM (chunkOf content (newlineOffsets content))
    return chunks.filter fun chunk => !isLiteralData chunk.text

end Embed
end CodeSage
