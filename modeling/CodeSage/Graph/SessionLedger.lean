import Mathlib.Algebra.Order.Ring.Int
import CodeSage.Lib.Json
import CodeSage.Protocol.HandleCorrect

/-!
# CodeSage.Graph.SessionLedger

The call ledger of a session, a file with a JSON record on each line (`crates/graph/src/session_ledger.rs`). An append may
be cut off after any of its bytes; the next one starts a line of its own. How a line is decoded is a parameter, and so is
what a path is below the project's root.
-/

namespace CodeSage
namespace Graph
namespace SessionLedger

open Lib

section Code

/-- `LedgerCall` -/
structure LedgerCall where
  ts : UInt64
  tool : Text
  targetHandles : List Text
  detail : Option Text
  bytes : UInt64
deriving DecidableEq, Repr

def MAX_LEDGER_BYTES : Nat := 2 * 1024 * 1024

def PRUNE_STEP_BYTES : Nat := 256 * 1024

def MAX_HANDLES : Nat := 64

def MAX_HANDLE_BYTES : Nat := 1024

/-- The bytes `read_session_ledger` reads at most. -/
def READ_LIMIT : Nat := MAX_LEDGER_BYTES + MAX_HANDLES * MAX_HANDLE_BYTES + 4096

def NEWLINE : UInt8 := 10

def LedgerCall.toJson (call : LedgerCall) : Json :=
  .obj [("ts".toList, .num (.nat call.ts.toNat)), ("tool".toList, .str call.tool),
    ("target_handles".toList, .arr (call.targetHandles.map .str)),
    ("detail".toList, (call.detail.map .str).getD .null), ("bytes".toList, .num (.nat call.bytes.toNat))]

/-- `serde_json::to_vec` -/
def LedgerCall.encode (call : LedgerCall) : List UInt8 := Utf8.bytes call.toJson.render

/-- `AppendOutcome` -/
inductive AppendOutcome where
  | written (prune : Bool)
  | capped
deriving DecidableEq, Repr

/-- The line break that ends a torn line. -/
def repair (file : List UInt8) : List UInt8 := if file.getLast?.any (· ≠ NEWLINE) then [NEWLINE] else []

/-- What an append writes. -/
def lineOf (file : List UInt8) (call : LedgerCall) : List UInt8 := repair file ++ call.encode ++ [NEWLINE]

/-- `append_call`, on a ledger that may not be there yet -/
def appendCall (file : Option (List UInt8)) (call : LedgerCall) : Option (List UInt8) × AppendOutcome :=
  let old := file.getD []
  if MAX_LEDGER_BYTES ≤ old.length then (some old, .capped)
  else
    let line := lineOf old call
    let after := old.length + line.length
    (some (old ++ line), .written (old.length = 0 || old.length / PRUNE_STEP_BYTES ≠ after / PRUNE_STEP_BYTES))

/-- `LedgerRead` -/
structure LedgerRead where
  present : Bool
  capped : Bool
  calls : List LedgerCall

/-- `read_session_ledger`, with what a line is decoded as -/
def readSessionLedger (decode : List UInt8 → Option LedgerCall) (file : Option (List UInt8)) (sinceMs : UInt64) : LedgerRead :=
  match file with
  | none => { present := false, capped := false, calls := [] }
  | some bytes =>
    { present := true
      capped := MAX_LEDGER_BYTES ≤ bytes.length
      calls := (((bytes.take READ_LIMIT).splitOn NEWLINE).filterMap decode).filter fun call => sinceMs ≤ call.ts }

end Code

section Handles

/-- Keys whose values are no served evidence. -/
def SKIP_KEYS : List Text :=
  ["next", "expand", "recover", "recovery", "remedy", "retry", "index", "cost", "completeness", "query", "input", "pattern", "code",
    "trace", "candidates", "notes", "summary_notes", "why", "legend", "commands", "error", "snapshot_path",
    "structural_overlay_paths", "unindexed_files", "unsupported_files", "unscored_files", "no_symbol_files", "failed_paths",
    "omitted_files"].map String.toList

/-- `is_path_key` -/
def isPathKey (key : Text) : Bool :=
  (["file", "path", "files", "paths", "primary", "reachable", "coupled"].map String.toList).contains key ||
    (["_file", "_files", "_path"].map String.toList).any fun suffix => suffix.isSuffixOf key

variable (stripRoot : Text → Option Text)

/-- The handle a text names; a bare path counts under a key that names paths. -/
def handleOf (pathKey : Bool) (text : Text) : Option Protocol.Handle :=
  match Protocol.Handle.parse text with
  | some (.file path) => some (.file path)
  | some (.symbol path qualified line) => some (.symbol path qualified line)
  | some (.chunk path start stop) => some (.chunk path start stop)
  | some _ => none
  | none => if pathKey then Protocol.Handle.ofFile ((stripRoot text).getD text) else none

def addText (pathKey : Bool) (text : Text) (out : List Text) : List Text :=
  if Utf8.size text ≤ MAX_HANDLE_BYTES then
    match handleOf stripRoot pathKey text with
    | some handle => if out.contains handle.toText then out else out ++ [handle.toText]
    | none => out
  else out

/-- An object that says it found nothing. -/
def servesNothing (members : Json.Members) : Bool :=
  (Json.lookup "status".toList members).bind Json.asStr == some "unresolved".toList ||
    match Json.lookup "found".toList members with
    | some (.bool found) => !found
    | _ => false

mutual

/-- `collect` -/
def collect (pathKey : Bool) (out : List Text) : Json → List Text
  | .obj members =>
    if MAX_HANDLES ≤ out.length then out else if servesNothing members then out else collectMembers out members
  | .arr items => if MAX_HANDLES ≤ out.length then out else collectItems pathKey out items
  | .str text => if MAX_HANDLES ≤ out.length then out else addText stripRoot pathKey text out
  | _ => out
termination_by structural value => value

def collectItems (pathKey : Bool) (out : List Text) : List Json → List Text
  | [] => out
  | item :: items => collectItems pathKey (collect pathKey out item) items
termination_by structural items => items

def collectMembers (out : List Text) : List (Text × Json) → List Text
  | [] => out
  | (key, child) :: members =>
    collectMembers (if SKIP_KEYS.contains key then out else collect (isPathKey key) out child) members
termination_by structural members => members

end

/-- `response_handles` -/
def responseHandles (value : Json) : List Text := collect stripRoot false [] value

end Handles

section Runs

/-- An append, which may stop after some of its bytes. -/
structure Append where
  call : LedgerCall
  torn : Option Nat

def Append.cut (op : Append) (line : List UInt8) : List UInt8 :=
  match op.torn with
  | some n => line.take n
  | none => line

/-- What is in the ledger behind an append. -/
def Append.write (op : Append) (file : Option (List UInt8)) : Option (List UInt8) :=
  let old := file.getD []
  if MAX_LEDGER_BYTES ≤ old.length then some old else some (old ++ op.cut (lineOf old op.call))

theorem write_whole (call : LedgerCall) (file : Option (List UInt8)) : (Append.mk call none).write file = (appendCall file call).1 := by
  rw [Append.write, appendCall]
  dsimp only [Append.cut]
  split
  · rfl
  · rfl

/-- The bytes of a line up to the end of its JSON text. -/
def jsonEnd (file : List UInt8) (call : LedgerCall) : Nat := (repair file).length + call.encode.length

/-- The append wrote all of its JSON text. -/
def Append.completes (op : Append) (file : List UInt8) : Bool :=
  decide (file.length < MAX_LEDGER_BYTES) && decide (jsonEnd file op.call ≤ (op.cut (lineOf file op.call)).length)

/-- The ledger after a run. -/
def ledgerAfter (file : Option (List UInt8)) : List Append → Option (List UInt8)
  | [] => file
  | op :: ops => ledgerAfter (op.write file) ops

/-- The calls whose JSON text a run completely wrote. -/
def completed (file : Option (List UInt8)) : List Append → List LedgerCall
  | [] => []
  | op :: ops => (if op.completes (file.getD []) then [op.call] else []) ++ completed (op.write file) ops

/-- Each record that is completely written ends within what is read. -/
def AllFit (file : Option (List UInt8)) : List Append → Prop
  | [] => True
  | op :: ops =>
    (op.completes (file.getD []) = true → (file.getD []).length + jsonEnd (file.getD []) op.call ≤ READ_LIMIT) ∧
      AllFit (op.write file) ops

end Runs

end SessionLedger
end Graph
end CodeSage
