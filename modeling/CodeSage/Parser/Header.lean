import Mathlib.Data.Finset.Basic
import Mathlib.Data.List.Dedup
import CodeSage.Lib.Table
import CodeSage.Parser.Detect

/-!
# CodeSage.Parser.Header

Which `.h` files are C++ (`crates/parser/src/header.rs`): headers next to a C++ file, headers a C++ file
includes, and headers that do not parse well as C in a project with C++ files. What is read and parsed of a
content is a function of its hash (`Contents`).
-/

namespace CodeSage
namespace Parser

open Lib

/-- What a content hash stands for -/
structure Contents where
  /-- `read_indexable_file` returns the source: it is not over the size cap. -/
  indexable : String → Bool
  /-- the paths of the live `#include` directives, and whether they are quoted -/
  includes : String → List (String × Bool)
  /-- `c_header_prefers_c` -/
  prefersC : String → Bool

inductive Component where
  | rootDir
  | curDir
  | parentDir
  | normal (part : String)
  deriving DecidableEq, Repr

/-- The pieces between slashes -/
def segments (path : List Char) : List String := (path.splitOn '/').map String.ofList

def componentOf (first : Bool) (segment : String) : Option Component :=
  if segment = "" then none
  else if segment = "." then if first then some .curDir else none
  else if segment = ".." then some .parentDir
  else some (.normal segment)

/-- `Path::components`: empty pieces and later dots are not components. -/
def components (path : String) : List Component :=
  match segments path.toList with
  | [] => []
  | segment :: rest =>
    (if path.toList.head? = some '/' then [Component.rootDir] else []) ++ (componentOf true segment).toList ++
      rest.filterMap (componentOf false)

/-- `Path::parent` -/
def parent (path : String) : Option (List Component) :=
  match (components path).getLast? with
  | none => none
  | some .rootDir => none
  | some _ => some (components path).dropLast

/-- One component of `normalize`: the parts so far -/
def normalizeStep (parts : Option (List String)) (c : Component) : Option (List String) :=
  parts.bind fun parts =>
    match c with
    | .normal part => some (parts ++ [part])
    | .curDir => some parts
    | .parentDir => if parts.isEmpty then none else some parts.dropLast
    | .rootDir => none

def normalize (path : List Component) : Option String := (path.foldl normalizeStep (some [])).map ("/".intercalate ·)

/-- The header with this path -/
def getHeader (headers : List String) (path : Option String) : Option String := path.bind fun p => headers.find? (· = p)

/-- The only header that ends in the suffix -/
def uniqueSuffix (headers : List String) (suffix : String) : Option String :=
  match headers.filter (endsWith · suffix) with
  | [header] => some header
  | _ => none

def resolveInclude (parent : List Component) (path : String) (quoted : Bool) (headers : List String) : Option String :=
  let besides := if quoted then getHeader headers (normalize (parent ++ components path)) else none
  besides.or ((normalize (components path)).bind fun normalized =>
    (getHeader headers (some normalized)).or (uniqueSuffix headers ("/" ++ normalized)))

def isHeader (f : FileInfo) : Bool := endsWith f.path ".h"

def isEvidence (f : FileInfo) : Bool := isCppEvidence f.path

/-- The set of the header paths -/
def headerPaths (files : List FileInfo) : List String := ((files.filter isHeader).map (·.path)).dedup

def cppSources (files : List FileInfo) : List FileInfo := files.filter isEvidence

def cppEvidence (files : List FileInfo) : Table String String :=
  Table.collect ((cppSources files).map fun f => (f.path, f.contentHash))

def priorHeaders (previous : List FileInfo) : Table String FileInfo :=
  Table.collect ((previous.filter isHeader).map fun f => (f.path, f))

def stableEvidence (files previous : List FileInfo) : Bool :=
  (headerPaths files).length = (priorHeaders previous).keys.length &&
    ((headerPaths files).all fun header => ((priorHeaders previous).lookup header).isSome) &&
    (cppEvidence files).same (cppEvidence previous)

/-- The prior decision for a header whose content is unchanged -/
def priorLanguage (previous : List FileInfo) (f : FileInfo) : Option (String × Language) :=
  ((priorHeaders previous).lookup f.path).bind fun prior =>
    if prior.contentHash = f.contentHash then some (f.path, prior.language) else none

def reusable (files previous : List FileInfo) : Table String Language :=
  Table.collect ((files.filter fun f => stableEvidence files previous && isHeader f).filterMap (priorLanguage previous))

/-- The headers in a directory of a C++ file -/
def siblings (files : List FileInfo) : List String :=
  (headerPaths files).filter fun header =>
    (parent header).any fun dir => dir ∈ (cppSources files).filterMap fun f => parent f.path

section Routing

variable (contents : Contents)

/-- An include of a source: the header becomes C++ and waits no longer. -/
def scanInclude (headers : List String) (dir : List Component) (acc : Finset String × Finset String)
    (target : String × Bool) : Finset String × Finset String :=
  match resolveInclude dir target.1 target.2 headers with
  | some header => (insert header acc.1, acc.2.erase header)
  | none => acc

/-- A source is scanned only while headers wait for a decision. -/
def scanSource (headers : List String) (acc : Finset String × Finset String) (f : FileInfo) :
    Finset String × Finset String :=
  if !contents.indexable f.contentHash || acc.2 = ∅ then acc
  else (contents.includes f.contentHash).foldl (scanInclude headers ((parent f.path).getD [])) acc

def scanHeader (reused : Table String Language) (cpp : Finset String) (f : FileInfo) : Finset String :=
  if f.path ∈ cpp || (reused.lookup f.path).isSome then cpp
  else if !contents.indexable f.contentHash then cpp
  else if contents.prefersC f.contentHash then cpp
  else insert f.path cpp

def cppHeadersWithContext (files previous : List FileInfo) : Finset String :=
  let headers := headerPaths files
  if headers.isEmpty then ∅
  else
    let reused := reusable files previous
    let cpp := ((reused.rows.filter fun row => row.2 = .cpp).map Prod.fst ++ siblings files).toFinset
    let pending := (headers.filter fun header => header ∉ cpp && (reused.lookup header).isNone).toFinset
    let scanned := (cppSources files).foldl (scanSource contents headers) (cpp, pending)
    if (cppSources files).isEmpty then scanned.1
    else (files.filter isHeader).foldl (scanHeader contents reused) scanned.1

def cppHeaders (files : List FileInfo) : Finset String := cppHeadersWithContext contents files []

/-- The hashes of the headers and the C++ files -/
def relevantHashes (files : List FileInfo) : Table String String :=
  Table.collect ((files.filter fun f => isHeader f || isEvidence f).map fun f => (f.path, f.contentHash))

def unchangedContext (files previous : List FileInfo) : Option (Finset String) :=
  if previous.isEmpty then none
  else if (relevantHashes files).same (relevantHashes previous) then
    some ((previous.filter fun f => isHeader f && f.language = .cpp).map (·.path)).toFinset
  else none

/-- The C++ headers of `discover_files_report_with_context` -/
def discoveredCppHeaders (files previous : List FileInfo) : Finset String :=
  (unchangedContext files previous).getD (cppHeadersWithContext contents files previous)

end Routing

end Parser
end CodeSage
