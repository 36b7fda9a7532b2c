import CodeSage.Lib.Split

/-!
# CodeSage.Parser.Detect

Which files are sources, by their extension (`crates/parser/src/detect.rs`).
-/

namespace CodeSage
namespace Parser

/-- `Language` -/
inductive Language where
  | php
  | python
  | c
  | cpp
  | java
  | rust
  | javaScript
  | typeScript
  | go
  deriving DecidableEq, Repr

/-- `FileInfo` -/
structure FileInfo where
  path : String
  language : Language
  contentHash : String
  deriving DecidableEq, Repr

/-- `str::ends_with` -/
def endsWith (path suffix : String) : Bool := suffix.toList.isSuffixOf path.toList

/-- `Path::file_name` of a relative path -/
def fileName (path : String) : List Char := ((Lib.rsplitOnce '/' path.toList).map Prod.snd).getD path.toList

/-- `Path::extension` -/
def extension (path : String) : Option String :=
  if fileName path = ['.', '.'] then none
  else
    match Lib.rsplitOnce '.' (fileName path) with
    | some (stem, ext) => if stem.isEmpty then none else some (String.ofList ext)
    | none => none

/-- `is_unambiguous_cpp_extension` -/
def isUnambiguousCppExtension (ext : String) : Bool :=
  ["cpp", "cc", "cxx", "c++", "cppm", "ixx", "hpp", "hh", "hxx", "h++", "tpp", "ipp"].contains ext

/-- `detect_language_with_dialect` -/
def detectLanguageWithDialect (path : String) (headerIsCpp : Bool) : Option Language :=
  (extension path).bind fun ext =>
    if ext = "php" then some .php
    else if ext = "py" ∨ ext = "pyi" then some .python
    else if ext = "c" then some .c
    else if ext = "h" then some (if headerIsCpp then .cpp else .c)
    else if ext = "cu" ∨ ext = "cuh" then some .cpp
    else if isUnambiguousCppExtension ext then some .cpp
    else if ext = "java" then some .java
    else if ext = "rs" then some .rust
    else if ext = "js" ∨ ext = "mjs" ∨ ext = "cjs" ∨ ext = "jsx" then some .javaScript
    else if ext = "ts" ∨ ext = "tsx" ∨ ext = "mts" ∨ ext = "cts" then some .typeScript
    else if ext = "go" then some .go
    else none

/-- `detect_language` -/
def detectLanguage (path : String) : Option Language := detectLanguageWithDialect path false

/-- `is_cpp_evidence` -/
def isCppEvidence (path : String) : Bool := (extension path).any isUnambiguousCppExtension

end Parser
end CodeSage
