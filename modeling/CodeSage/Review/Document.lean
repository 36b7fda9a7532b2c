import CodeSage.Lib.Table
import CodeSage.Lib.Text
import Mathlib.Algebra.Order.Field.Rat

/-!
# CodeSage.Review.Document

The data of `plugins/codesage-tools/bin/codesage-review-state`: the JSON it reads, a candidate of a review response,
the findings of a document, and what the script takes from the interpreter (`Host`). The fields of a stored finding
have the types that `render_report` asks for.
-/

namespace CodeSage
namespace Review

open Lib

/-- What `json.loads` returns. -/
inductive Json where
  | null
  | bool (b : Bool)
  | int (n : Int)
  | float (x : Rat)
  | nan
  | infinity (negative : Bool)
  | str (s : Text)
  | arr (items : List Json)
  | obj (fields : List (Text × Json))

/-- `value.get(key)` of an object -/
def getField (fields : List (Text × Json)) (key : Text) : Json := (fields.lookup key).getD .null

/-- An exception: one that `except (OSError, TypeError, ValueError)` catches, or another. -/
inductive Raised where
  | caught (message : Text)
  | other (message : Text)

/-- What the script takes from the interpreter and its library. -/
structure Host where
  /-- `hashlib.sha256(text.encode("utf-8")).hexdigest()` -/
  sha256 : Text → Text
  /-- `str.isalnum` of one character -/
  isAlnum : Char → Bool
  /-- `str.lower` -/
  lower : Text → Text
  /-- `str(value)` -/
  str : Json → Text
  /-- `int(value)` -/
  int : Json → Except Raised Int

/-- `str.isspace` of one character -/
def isSpace (c : Char) : Bool := isWhitespace c || (0x1C ≤ c.toNat && c.toNat ≤ 0x1F)

/-- `bool(text.strip())` -/
def hasText (text : Text) : Bool := text.any fun c => !isSpace c

inductive Severity where
  | low | medium | high
  deriving DecidableEq

def Severity.text : Severity → Text
  | .low => "low".toList
  | .medium => "medium".toList
  | .high => "high".toList

inductive Category where
  | bug | security | perf | maintainability
  deriving DecidableEq

def Category.text : Category → Text
  | .bug => "bug".toList
  | .security => "security".toList
  | .perf => "perf".toList
  | .maintainability => "maintainability".toList

inductive Status where
  /-- `"open"` -/
  | opened
  | fixed
  | falsePositive
  | wontFix
  deriving DecidableEq

theorem hasText_lines : hasText "lines".toList = true := by decide

theorem ten_nonneg : (0 : Rat) ≤ 10 := by decide

/-- A measure that `clean_magnitude` lets through. -/
structure Magnitude where
  metric : Text
  value : Rat
  named : hasText metric = true
  nonneg : 0 ≤ value
  deriving DecidableEq

structure Acknowledgement extends Magnitude where
  time : Text
  deriving DecidableEq

/-- An entry of a finding's `history`. -/
structure Event where
  action : Text
  time : Text
  runId : Option Text := none
  result : Option Text := none
  fromStatus : Option Status := none
  toStatus : Option Status := none
  reason : Option Text := none
  note : Option Text := none
  acknowledgement : Option Acknowledgement := none
  deriving DecidableEq

/-- A finding of another document. -/
structure Origin where
  featureId : Option Text
  findingId : Text
  deriving DecidableEq

/-- A finding of a response, as `clean_finding` leaves it, and what `validate_response` adds. -/
structure Candidate where
  file : Text
  line : Int
  severity : Severity
  category : Category
  title : Text
  summary : Text
  evidence : List Json
  suggestedFix : Json
  magnitude : Option Magnitude
  contentDigest : Option Text

/-- A candidate with its id. -/
structure Accepted extends Candidate where
  findingId : Text

/-- A stored finding. -/
structure Finding extends Accepted where
  status : Status
  acknowledgement : Option Acknowledgement
  history : List Event
  firstSeenAt : Option Text
  lastSeenAt : Option Text
  triagedAt : Option Text
  ackTransferredFrom : Option Origin
  ackTransferredTo : Option (List Origin)

/-- An entry of `ack_sweep`. -/
structure Diagnostic where
  findingId : Option Text
  file : Option Text := none
  kind : Text
  reason : Text

structure Document where
  featureId : Option Text
  findings : List Finding
  reviewedAt : Option Text
  reviewedAtSha : Option Text
  reviewedState : Option Text
  ackSweep : List Diagnostic

/-- `{"findings": []}` -/
def Document.empty : Document := ⟨none, [], none, none, none, []⟩

def Document.ids (d : Document) : List Text := d.findings.map (·.findingId)

/-- The first element that no later one beats: `min` and `max` with a key. -/
def firstBest {α : Type} (better : α → α → Bool) : List α → Option α
  | [] => none
  | x :: xs => some (xs.foldl (fun best y => if better y best then y else best) x)

theorem firstBest_mem {α : Type} {better : α → α → Bool} {xs : List α} {x : α} (h : firstBest better xs = some x) :
    x ∈ xs := by
  cases xs with
  | nil => cases h
  | cons y ys =>
    cases h
    induction ys generalizing y with
    | nil => exact List.mem_cons_self ..
    | cons z zs ih =>
      rw [List.foldl_cons]
      have hmem := ih (if better z y then z else y)
      rcases List.mem_cons.mp hmem with heq | htail
      · rw [heq]
        split
        · exact List.mem_cons_of_mem _ (List.mem_cons_self ..)
        · exact List.mem_cons_self ..
      · exact List.mem_cons_of_mem _ (List.mem_cons_of_mem _ htail)

end Review
end CodeSage
