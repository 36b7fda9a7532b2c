import Mathlib.Data.List.DropRight
import CodeSage.Git.Indexer
import CodeSage.Lib.Split
import CodeSage.Lib.Text

/-!
# CodeSage.Git.Log

What `git log` prints and how it is read (`parse_log` in `crates/graph/src/git_history/indexer.rs`), and the
renames of the commits read (`follow_renames`). Here a change keeps its line counts, which the pass itself
(`CodeSage.Git.Indexer`) leaves out. The text is a list of characters, since the output is UTF-8 or refused;
the counters of skipped entries only feed a warning and are left out.
-/

namespace CodeSage
namespace Git
namespace Log

open Lib

structure FileChange where
  path : String
  added : UInt32
  deleted : UInt32
  deriving DecidableEq, Repr

/-- `Commit` -/
structure LogCommit where
  sha : String
  author : String
  timestamp : Int
  subject : Text
  changes : List FileChange
  renames : List (String × String)
  deriving DecidableEq, Repr

/-! ## Reading -/

/-- `str::splitn(3, sep)`: the first field, the second and the rest, as far as there are separators. -/
def splitn3 (sep : Char) (line : Text) : Text × Option (Text × Option Text) :=
  match splitOnce sep line with
  | none => (line, none)
  | some (first, rest) =>
    match splitOnce sep rest with
    | none => (first, some (rest, none))
    | some (second, third) => (first, some (second, some third))

/-- `is_numstat_count` -/
def isNumstatCount (field : Text) : Bool := field = ['-'] || (!field.isEmpty && field.all Char.isDigit)

/-- `normalized_author` (`bus_factor.rs`); `str::to_lowercase` is the parameter. -/
def normalizedAuthor (toLowercase : Text → Text) (email name : Text) : Option Text :=
  let email := toLowercase ((email.dropWhile isWhitespace).rdropWhile isWhitespace)
  if !email.isEmpty then some ("email:".toList ++ email)
  else
    let name := List.intercalate [' '] ((name.splitOnP isWhitespace).filter (!·.isEmpty))
    if !name.isEmpty then some ("name:".toList ++ toLowercase name) else none

/-- The error of a record that is neither a header nor a numstat line, with the excerpt it quotes. -/
structure ForeignRecord where
  excerpt : Text
  deriving DecidableEq, Repr

section

variable (toLowercase : Text → Text)

/-- What a header starts with. -/
def COMMIT : Text := ['c', 'o', 'm', 'm', 'i', 't', '\t']

/-- The author and the subject of a header's last field. -/
def authorAndSubject (remaining : Text) : Text × Text :=
  match splitn3 '\x1f' remaining with
  | (email, some (name, some subject)) => ((normalizedAuthor toLowercase email name).getD [], subject)
  | _ => ([], remaining)

/-- A header behind `commit\t`; `none` when its timestamp does not parse. -/
def parseHeader (rest : Text) : Option LogCommit :=
  match splitn3 '\t' rest with
  | (_, none) => none
  | (sha, some (stamp, remaining)) =>
    (parseI64 stamp).map fun timestamp =>
      let (author, subject) := authorAndSubject toLowercase (remaining.getD [])
      { sha := String.ofList sha, author := String.ofList author, timestamp, subject, changes := [], renames := [] }

/-- The rename of an entry, if it is one and names both paths. -/
def entryRename (path : Text) (renamedFrom : Option Text) : List (String × String) :=
  match renamedFrom with
  | some old => if !old.isEmpty && !path.isEmpty then [(String.ofList old, String.ofList path)] else []
  | none => []

/-- The change of an entry; none for a binary file or a count that does not parse. -/
def entryChange (added deleted path : Text) : List FileChange :=
  if path.isEmpty || added = ['-'] || deleted = ['-'] then []
  else
    match parseU32 added, parseU32 deleted with
    | some a, some d => [{ path := String.ofList path, added := a, deleted := d }]
    | _, _ => []

/-- What a numstat entry adds to the commit it belongs to. -/
def addEntry (added deleted path : Text) (renamedFrom : Option Text) (commit : LogCommit) : LogCommit :=
  { commit with changes := commit.changes ++ entryChange added deleted path,
                renames := commit.renames ++ entryRename path renamedFrom }

/-- The loop of `parse_log` over the NUL-separated records. -/
def parseRecords : List Text → Option LogCommit → Except ForeignRecord (List LogCommit)
  | [], current => .ok current.toList
  | record :: records, current =>
    let line := record.dropWhile (· = '\n')
    if COMMIT.isPrefixOf line then
      (parseRecords records (parseHeader toLowercase (line.drop COMMIT.length))).map (current.toList ++ ·)
    else if line.isEmpty then parseRecords records current
    else
      let (added, fields) := splitn3 '\t' line
      if !isNumstatCount added then .error ⟨line.take 120⟩
      else
        match fields with
        | some (deleted, some path) =>
          if path.isEmpty then
            match records with
            -- a rename: the two records that follow are its paths, whatever they look like
            | old :: new :: records => parseRecords records (current.map (addEntry added deleted new (some old)))
            | _ => .ok current.toList
          else parseRecords records (current.map (addEntry added deleted path none))
        | _ => parseRecords records current

/-- `parse_log` -/
def parseLog (raw : Text) : Except ForeignRecord (List LogCommit) :=
  parseRecords toLowercase (raw.splitOnP (· = '\x00')) none

end

/-! ## Renames -/

/-- `u32::saturating_add` -/
def saturatingAdd (a b : UInt32) : UInt32 := UInt32.ofNat (min (a.toNat + b.toNat) (2 ^ 32 - 1))

/-- One change onto the entry of its path. -/
def mergeChange (merged : List FileChange) (change : FileChange) : List FileChange :=
  match merged.findIdx? (·.path = change.path) with
  | some i => merged.modify i fun m =>
      { m with added := saturatingAdd m.added change.added, deleted := saturatingAdd m.deleted change.deleted }
  | none => merged ++ [change]

/-- `merge_same_path` -/
def mergeSamePath (changes : List FileChange) : List FileChange := changes.foldl mergeChange []

/-- `follow_renames`; children stand before parents. -/
def followRenames (policy : Policy) : List LogCommit → Successor → List LogCommit × Successor
  | [], successor => ([], successor)
  | commit :: commits, successor =>
    let keyed := (commit.changes.filter fun change => !policy.excluded change.path).map fun change =>
      { change with path := successor.current change.path }
    let rest := followRenames policy commits (successor.follow commit.renames)
    ({ commit with changes := mergeSamePath keyed } :: rest.1, rest.2)

/-- The commit as the pass counts it. -/
def LogCommit.counted (c : LogCommit) : Commit :=
  { sha := c.sha, author := c.author, timestamp := c.timestamp, subject := c.subject,
    changes := c.changes.map (·.path), renames := c.renames }

end Log
end Git
end CodeSage
