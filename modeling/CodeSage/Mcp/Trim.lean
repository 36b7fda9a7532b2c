import Mathlib.Algebra.Order.Ring.Int
import CodeSage.Lib.JsonPointer
import CodeSage.Lib.Split
import CodeSage.Lib.TextMap
import Mathlib.Data.List.DropRight

/-!
# CodeSage.Mcp.Trim

Bringing a reply within its budget, `trim_to_budget` (`crates/cli/src/mcp/detail.rs`). While the rendered value is too
long, the longest source text in it is cut in half, and once none is long the largest array of rows loses its last
row; each time the disclosure of all that is missing is written into the value anew.

A step that indexes into a value which is no object panics; `none` stands for that. The texts of
`completeness.recover.trimmed` and of `shortened` are JSON pointers.
-/

namespace CodeSage
namespace Mcp
namespace Trim

open Lib Lib.Json

section Names

def COMPLETENESS : Text := "completeness".toList
def META : Text := "_meta".toList
def RECOVER : Text := "recover".toList
def TRIMMED : Text := "trimmed".toList
def SHORTENED : Text := "shortened".toList
def FIELD : Text := "field".toList
def RETURNED : Text := "returned".toList
def OMITTED : Text := "omitted".toList
def ALSO_TRUNCATED : Text := "also_truncated_fields".toList
def DROPPED_FILES : Text := "dropped_files".toList
def DROPPED_COUNT : Text := "dropped_count".toList

def MARKER : Text := "\n…[truncated by MCP budget]".toList

/-- The keys under which no source is looked for. -/
def SOURCE_SKIPPED : List Text :=
  ["next".toList, "target".toList, META, "index".toList, "cost".toList, COMPLETENESS, RECOVER, "expand".toList,
    "arguments".toList, "evidence".toList]

/-- The keys under which no rows are dropped. -/
def ROWS_SKIPPED : List Text :=
  SOURCE_SKIPPED ++ ["notes".toList, "warnings".toList, "limitations".toList, "kinds".toList, "reasons".toList,
    "cycle_files".toList, "trace".toList, "stages".toList]

def SOURCE_KEYS : List Text := ["content".toList, "snippet".toList]

end Names

section Candidates

abbrev Best := Option (Nat × Text)

/-- `best.as_ref().is_none_or(|(size, _)| *size < bytes)` -/
def smaller (best : Best) (bytes : Nat) : Bool := best.all fun found => decide (found.1 < bytes)

def isLongSource (key : Text) (value : Json) : Bool :=
  decide (key ∈ SOURCE_KEYS) && value.asStr.any fun text => decide (256 < Utf8.size text)

/-- The bytes of a text. -/
def textSize (value : Json) : Nat := (value.asStr.map Utf8.size).getD 0

mutual

def sourceCandidates : Json → Text → Best → Best
  | .obj members, path, best => sourceMembers members path best
  | .arr rows, path, best => sourceRows rows path 0 best
  | _, _, best => best
termination_by structural value => value

def sourceMembers : List (Text × Json) → Text → Best → Best
  | [], _, best => best
  | (key, value) :: members, path, best =>
    if key ∈ SOURCE_SKIPPED then sourceMembers members path best
    else if isLongSource key value && smaller best (textSize value) then
      sourceMembers members path (some (textSize value, path ++ '/' :: escapeKey key))
    else sourceMembers members path (sourceCandidates value (path ++ '/' :: escapeKey key) best)
termination_by structural members => members

def sourceRows : List Json → Text → Nat → Best → Best
  | [], _, _, best => best
  | row :: rows, path, i, best => sourceRows rows path (i + 1) (sourceCandidates row (path ++ '/' :: decimal i) best)
termination_by structural rows => rows

end

def largestSource (value : Json) : Option Text := (sourceCandidates value [] none).map Prod.snd

/-- More than one row, all of one kind: these may be dropped. -/
def trimmable (rows : List Json) : Bool :=
  decide (1 < rows.length) && (rows.all isObject || rows.all isString || rows.all isArray)

mutual

def rowsCandidates : Json → Text → Best → Best
  | .obj members, path, best => rowsMembers members path best
  | .arr rows, path, best =>
    if trimmable rows then
      if smaller best (Json.size (.arr rows)) then some (Json.size (.arr rows), path) else best
    else rowsRows rows path 0 best
  | _, _, best => best
termination_by structural value => value

def rowsMembers : List (Text × Json) → Text → Best → Best
  | [], _, best => best
  | (key, value) :: members, path, best =>
    if key ∈ ROWS_SKIPPED then rowsMembers members path best
    else rowsMembers members path (rowsCandidates value (path ++ '/' :: escapeKey key) best)
termination_by structural members => members

def rowsRows : List Json → Text → Nat → Best → Best
  | [], _, _, best => best
  | row :: rows, path, i, best => rowsRows rows path (i + 1) (rowsCandidates row (path ++ '/' :: decimal i) best)
termination_by structural rows => rows

end

def largestRows (value : Json) : Option Text := (rowsCandidates value [] none).map Prod.snd

end Candidates

section Changes

/-- `while !text.is_char_boundary(end) { end -= 1 }` -/
def boundaryBelow (text : Text) : Nat → Nat
  | 0 => 0
  | stop + 1 => if Utf8.isBoundary text (stop + 1) then stop + 1 else boundaryBelow text stop

/-- The first half of a text, with the marker behind it. -/
def shorten (text : Text) : Text := (Utf8.slice text 0 (boundaryBelow text (Utf8.size text / 2))).getD [] ++ MARKER

/-- `value.pointer_mut(path)` with what is found there changed by `f` -/
def updatePointer (f : Json → Json) (path : Text) (value : Json) : Option Json := do
  let tokens ← tokensOf path
  update f tokens value

def protectedRows (path : Text) : Bool := "/files".toList.isSuffixOf path || "/clustered_directories".toList.isSuffixOf path

/-- What a dropped row is known by. -/
def identity (dropped : Json) : Option Text :=
  (["handle".toList, "file_path".toList, "file".toList, "path".toList, "directory".toList, "name".toList].findSome? fun key =>
    (dropped.get key).bind asStr) <|> dropped.asStr

/-- `path.trim_start_matches('/').split('/')`, unescaped and joined by dots -/
def labelOf (path : Text) : Text := ['.'].intercalate ((Segments.split (path.dropWhile (· = '/'))).map unescape)

/-- What a call works with, and what it has taken away so far. -/
structure State where
  value : Json
  removed : List (Text × Nat)
  omittedHandles : List (Text × List Json)
  shortened : List Text
  legacyCounts : List (Text × Text × Nat)

structure Call where
  budget : Nat
  retry : Option Json
  envelopeEnabled : Bool
  prior : Option Json
  legacyMeta : Option Json

inductive Change where
  | nothing
  | panic
  | changed (s : State)

def shortenSource (s : State) (path : Text) : Change :=
  match (s.value.pointer path).bind asStr with
  | none => .panic
  | some text =>
    match updatePointer (fun _ => .str (shorten text)) path s.value with
    | none => .panic
    | some value => .changed { s with value := value, shortened := TextMap.addText path s.shortened }

def popRow (envelopeEnabled : Bool) (s : State) (path : Text) : Change :=
  match (s.value.pointer path).bind asArray with
  | none => .panic
  | some rows =>
    match rows.getLast?, updatePointer (fun _ => .arr rows.dropLast) path s.value with
    | some dropped, some value =>
      .changed
        { s with
          value := value
          removed := TextMap.alter path (fun count => count.getD 0 + 1) s.removed
          omittedHandles :=
            match (if protectedRows path then identity dropped else none) with
            | some name => TextMap.alter path (fun names => names.getD [] ++ [.str name]) s.omittedHandles
            | none => s.omittedHandles
          legacyCounts :=
            if !envelopeEnabled && !s.legacyCounts.any (fun count => count.2.1 = path) then
              s.legacyCounts ++ [(labelOf path, path, rows.length)]
            else s.legacyCounts }
    | _, _ => .panic

/-- One source shortened or, where none is long, one row dropped. -/
def change (envelopeEnabled : Bool) (s : State) : Change :=
  match largestSource s.value with
  | some path => shortenSource s path
  | none =>
    match largestRows s.value with
    | some path => popRow envelopeEnabled s path
    | none => .nothing

end Changes

section Counts

/-- `str::parse::<usize>` -/
def parseUsize (text : Text) : Option Nat :=
  (match text with
    | '+' :: digits => parseDigits digits
    | digits => parseDigits digits).filter (· < 2 ^ 64)

/-- `text.rsplit_once(" (")` -/
def rsplitCounts : Text → Option (Text × Text)
  | x :: y :: rest =>
    match rsplitCounts (y :: rest) with
    | some (before, after) => some (x :: before, after)
    | none => if x = ' ' ∧ y = '(' then some ([], rest) else none
  | _ => none

/-- A field written with dots and brackets, as a pointer. -/
def fieldPointer (field : Text) : Text :=
  toPointer ((field.splitOnP fun c => c = '.' || c = '[' || c = ']').filter fun part => !part.isEmpty)

/-- A label such as `results (3/10)`, its field and its total. -/
def labelCount (label : Text) : Option (Text × Text × Nat) := do
  let (field, counts) ← rsplitCounts label
  let (_, total) ← splitOnce '/' (counts.rdropWhile (· = ')'))
  let total ← parseUsize total
  some (field, fieldPointer field, total)

/-- The arrays an earlier cut speaks of: label, pointer and full length. -/
def legacyArrayCounts (legacyMeta : Json) : List (Text × Text × Nat) :=
  let first :=
    match (legacyMeta.get "total_results".toList).bind asNat with
    | some total =>
      let field := ((legacyMeta.get FIELD).bind asStr).getD "results".toList
      [(field, fieldPointer field, total)]
    | none => []
  let additional := ((legacyMeta.get ALSO_TRUNCATED).bind asArray).getD []
  first ++ (additional.filterMap asStr).filterMap labelCount

end Counts

section Disclosure

/-- How many rows are left at a pointer. -/
def lengthAt (value : Json) (path : Text) : Nat := (((value.pointer path).bind asArray).map List.length).getD 0

def number (n : Nat) : Json := .num (.nat n)

/-- The count of the first array, in fields of its own. -/
def writeFirstCount (envelopeEnabled : Bool) (label : Text) (total returned : Nat) (written : Json) : Option Json := do
  let written ← assign [RETURNED] (number returned) written
  if envelopeEnabled then some written
  else (assign [FIELD] (.str label) written).bind (assign ["total_results".toList] (number total))

def startLabels (written : Json) : Option Json :=
  if (written.get ALSO_TRUNCATED).isNone then assign [ALSO_TRUNCATED] (.arr []) written else some written

/-- The count of another array, as a label. -/
def writeLabel (label : Text) (total returned index : Nat) (written : Json) : Option Json := do
  let written ← startLabels written
  let fields ← (written.get ALSO_TRUNCATED).bind asArray
  let resized := fields ++ List.replicate (index - fields.length) .null
  let text := label ++ " (".toList ++ decimal returned ++ ['/'] ++ decimal total ++ [')']
  assign [ALSO_TRUNCATED] (.arr (resized.set (index - 1) (.str text))) written

def writeCount (envelopeEnabled : Bool) (value : Json) (index : Nat) (count : Text × Text × Nat) (written : Json) : Option Json :=
  let (label, path, total) := count
  if index = 0 then writeFirstCount envelopeEnabled label total (lengthAt value path) written
  else writeLabel label total (lengthAt value path) index written

def writeCounts (envelopeEnabled : Bool) (value : Json) (counts : List (Text × Text × Nat)) (legacyMeta : Json) : Option Json :=
  counts.zipIdx.foldlM (fun written count => writeCount envelopeEnabled value count.2 count.1 written) legacyMeta

/-- The number of rows dropped from protected arrays, where their names do not tell it. -/
def writeDroppedCount (original named newDropped : Nat) (written : Json) : Option Json :=
  if (written.get DROPPED_COUNT).isSome || decide (named < newDropped) then
    let previous := ((written.get DROPPED_COUNT).bind asNat).getD original
    assign [DROPPED_COUNT] (number (previous + newDropped)) written
  else some written

/-- The rows dropped from protected arrays, by their names where these are known. -/
def writeDropped (s : State) (written : Json) : Option Json :=
  let newDropped := ((s.removed.filter fun entry => protectedRows entry.1).map Prod.snd).sum
  let named := s.omittedHandles.flatMap Prod.snd
  let original := ((written.get DROPPED_FILES).bind asArray).getD []
  if 0 < newDropped then
    (writeDroppedCount original.length named.length newDropped written).bind (assign [DROPPED_FILES] (.arr (original ++ named)))
  else some written

/-- `_meta`, from what it was before the call. -/
def writeMeta (call : Call) (s : State) (value : Json) : Option Json :=
  match call.legacyMeta with
  | none => some value
  | some legacyMeta => do
    let written ← writeCounts call.envelopeEnabled value s.legacyCounts legacyMeta
    let written ← assign ["approx_tokens_budget".toList] (number (call.budget / 4)) written
    let written ← writeDropped s written
    assign [META] written value

/-- The record of one array rows were dropped from. -/
def fieldOf (s : State) (value : Json) (entry : Text × Nat) : Json :=
  let (path, count) := entry
  let returned := lengthAt value path
  let omitted :=
    match s.legacyCounts.find? fun legacy => legacy.2.1 = path with
    | some (_, _, total) => total - returned
    | none => count
  let handles :=
    match TextMap.find path s.omittedHandles with
    | some handles => [("omitted_handles".toList, .arr handles)]
    | none => []
  .obj ([(FIELD, .str path), (RETURNED, number returned), (OMITTED, number omitted)] ++ handles)

def strings (texts : List Text) : Json := .arr (texts.map .str)

/-- `value[..keys][key] = new`, where there is something to write -/
def assignSome (keys : List Text) (new : Option Json) (value : Json) : Option Json :=
  match new with
  | some new => assign keys new value
  | none => some value

def listed (s : State) : Option Json := if s.shortened.isEmpty then none else some (strings s.shortened)

/-- The kinds of an earlier record behind the one of this cut. -/
def kindsOf (prior : Json) : List Json :=
  let kind := ((prior.get "kind".toList).filter fun kind => !kind.same (.str "truncated".toList)).toList
  let more := ((prior.get "kinds".toList).bind asArray).getD []
  more.foldl (fun kinds kind => if kinds.any (same kind) then kinds else kinds ++ [kind]) (.str "truncated".toList :: kind)

/-- The offset of the next page, as many rows on as are returned now. -/
def writeOffset (prior previous returned value : Json) : Option Json :=
  match (prior.pointer "/recover/arguments/offset".toList).bind asNat, previous.asNat, returned.asNat with
  | some offset, some previous, some current =>
    assign [COMPLETENESS, "prior".toList, RECOVER, "arguments".toList, "offset".toList]
      (number (min (offset - previous + current) (2 ^ 64 - 1))) value
  | _, _, _ => some value

def writeReturned (prior value : Json) : Option Json :=
  match prior.pointer "/recover/returned".toList, value.pointer "/_meta/returned".toList with
  | some previous, some returned =>
    (writeOffset prior previous returned value).bind (assign [COMPLETENESS, "prior".toList, RECOVER, RETURNED] returned)
  | _, _ => some value

/-- The record the value carried before the call, below the new one. -/
def writePrior (prior : Json) (value : Json) : Option Json := do
  let value ← assign [COMPLETENESS, "prior".toList] prior value
  let value ← writeReturned prior value
  assign [COMPLETENESS, "kinds".toList] (.arr (kindsOf prior)) value

def writeCompleteness (call : Call) (s : State) (trimmed : List Json) (value : Json) : Option Json := do
  let value ← assign [COMPLETENESS]
    (.obj [("kind".toList, .str "truncated".toList),
      (RECOVER, .obj [("detail".toList, .str "standard".toList), (TRIMMED, .arr trimmed)])]) value
  let value ← assignSome [COMPLETENESS, RECOVER, SHORTENED] (listed s) value
  let value ← assignSome [COMPLETENESS, RECOVER, "tool".toList] (call.retry.map fun retry => (retry.get "tool".toList).getD .null) value
  let value ← assignSome [COMPLETENESS, RECOVER, "arguments".toList]
    (call.retry.map fun retry => (retry.get "arguments".toList).getD .null) value
  match call.prior with
  | some prior => writePrior prior value
  | none => some value

/-- The disclosure of a reply without an envelope. -/
def writeLegacy (call : Call) (s : State) (trimmed : List Json) (value : Json) : Option Json := do
  let value ← assign [META, "truncated".toList] (.bool true) value
  let value ← assign [META, TRIMMED] (.arr trimmed) value
  let value ← assignSome [META, SHORTENED] (listed s) value
  assignSome [META, RECOVER] call.retry value

def disclose (call : Call) (s : State) : Option Json := do
  let value ← writeMeta call s s.value
  let trimmed := s.removed.map (fieldOf s value)
  if call.envelopeEnabled then writeCompleteness call s trimmed value else writeLegacy call s trimmed value

end Disclosure

section Loop

inductive Outcome where
  | returned (s : State)
  | panic
  | outOfFuel

def trimLoop (call : Call) : Nat → State → Outcome
  | 0, _ => .outOfFuel
  | fuel + 1, s =>
    if call.budget < s.value.size then
      match change call.envelopeEnabled s with
      | .nothing => .returned s
      | .panic => .panic
      | .changed s =>
        match disclose call s with
        | none => .panic
        | some value => trimLoop call fuel { s with value := value }
    else .returned s

def callOf (value : Json) (budget : Nat) (retry : Option Json) (envelopeEnabled : Bool) : Call where
  budget := budget
  retry := retry
  envelopeEnabled := envelopeEnabled
  prior := value.get COMPLETENESS
  legacyMeta := (value.get META).or (if envelopeEnabled then none else some (.obj [("truncated".toList, .bool true)]))

def start (value : Json) (call : Call) : State where
  value := value
  removed := []
  omittedHandles := []
  shortened := []
  legacyCounts := (call.legacyMeta.map legacyArrayCounts).getD []

def trimToBudget (fuel : Nat) (value : Json) (budget : Nat) (retry : Option Json) (envelopeEnabled : Bool) : Outcome :=
  let call := callOf value budget retry envelopeEnabled
  trimLoop call fuel (start value call)

end Loop

end Trim
end Mcp
end CodeSage
