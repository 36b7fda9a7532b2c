import CodeSage.Lib.Segments
import CodeSage.Lib.Split
import CodeSage.Parser.Detect

/-!
# CodeSage.Graph.ImportPaths

Which files a module specifier or an include names (`crates/graph/src/bundle.rs`): the list of candidates,
`path_import_candidates`, and the predicate over one target, `import_ref_targets_file`, with the Rust and the
Python paths it also answers for.

`alnum` is `char::is_alphanumeric`.
-/

namespace CodeSage
namespace Graph
namespace ImportPaths

open Lib

section Dialect

/-- `Path::file_name`: the last component, with empty and dot components left out. -/
def fileNameOf (path : Text) : Text :=
  (((Segments.split path).filter fun c => c ≠ [] && c ≠ ['.']).getLast?).getD []

/-- `detect_language(Path::new(path))` -/
def languageOf (path : Text) : Option Parser.Language := Parser.detectLanguage (String.ofList (fileNameOf path))

inductive ImporterDialect where
  | javaScript | typeScript | cFamily | other
deriving DecidableEq, Repr

def importerDialect (importerFile : Text) : ImporterDialect :=
  match languageOf importerFile with
  | some .javaScript => .javaScript
  | some .typeScript => .typeScript
  | some .c | some .cpp => .cFamily
  | _ => .other

end Dialect

section Relative

/-- `importer_file.rsplit_once('/').map_or("", |(dir, _)| dir)` -/
def dirOf (file : Text) : Text := ((rsplitOnce '/' file).map Prod.fst).getD []

def lexicalJoin (base spec : Text) : Option Text :=
  (Segments.walk (if base.isEmpty then [] else Segments.split base) (Segments.split spec)).map Segments.join

def isRelative (importRef : Text) : Bool := "./".toList.isPrefixOf importRef || "../".toList.isPrefixOf importRef

def TS_EXTENSION_ORDER : List Text :=
  ["ts", "tsx", "d.ts", "js", "jsx", "mts", "cts", "mjs", "cjs"].map String.toList

def JS_EXTENSION_ORDER : List Text :=
  ["js", "jsx", "mjs", "cjs", "ts", "tsx", "d.ts", "mts", "cts"].map String.toList

def emittedExtensionSources (ext : Text) : List Text :=
  if ext = "js".toList then ["ts", "tsx", "d.ts"].map String.toList
  else if ext = "jsx".toList then ["tsx".toList]
  else if ext = "mjs".toList then ["mts".toList]
  else if ext = "cjs".toList then ["cts".toList]
  else []

def isCompleteModuleExtension (ext : Text) : Bool :=
  (["js", "jsx", "mjs", "cjs", "ts", "tsx", "mts", "cts", "json"].map String.toList).contains ext

/-- The text up to the last dot of the last segment, and what follows that dot. -/
def extensionSplit (resolved : Text) : Option (Text × Text) :=
  let segment := ((rsplitOnce '/' resolved).map Prod.snd).getD resolved
  (rsplitOnce '.' segment).map fun r => (resolved.take (resolved.length - segment.length) ++ r.1, r.2)

def completeCandidates (resolved stem ext : Text) (dialect : ImporterDialect) : List Text :=
  let sources := (emittedExtensionSources ext).map fun source => stem ++ ['.'] ++ source
  if dialect = .typeScript then sources ++ [resolved] else resolved :: sources

def openCandidates (resolved : Text) (order : List Text) : List Text :=
  resolved :: (order.map fun ext => resolved ++ ['.'] ++ ext) ++
    order.map fun ext => resolved ++ "/index.".toList ++ ext

/-- The extensions the resolver of a dialect tries. -/
def extensionOrder : ImporterDialect → List Text
  | .typeScript => TS_EXTENSION_ORDER
  | .javaScript => JS_EXTENSION_ORDER
  | .cFamily | .other => []

def relativeFileCandidates (resolved : Text) (dialect : ImporterDialect) : List Text :=
  match dialect with
  | .cFamily | .other => [resolved]
  | .javaScript | .typeScript =>
    match extensionSplit resolved with
    | some (stem, ext) =>
      if isCompleteModuleExtension ext then completeCandidates resolved stem ext dialect
      else openCandidates resolved (extensionOrder dialect)
    | none => openCandidates resolved (extensionOrder dialect)

def relativeFileMatches (resolved symFile : Text) (dialect : ImporterDialect) : Bool :=
  (relativeFileCandidates resolved dialect).any (· == symFile)

def quotedIncludeCandidates (importRef importerFile : Text) : List Text :=
  if !(['<'].isPrefixOf importRef) && (importRef.contains '/' || importRef.contains '.') then
    (lexicalJoin (dirOf importerFile) importRef).toList ++ [importRef]
  else []

/-- `import_ref.contains("::")` -/
def hasPathSep (importRef : Text) : Bool := decide ("::".toList <:+: importRef)

def pathImportCandidates (importRef importerFile : Text) : List Text :=
  let dialect := importerDialect importerFile
  if dialect ≠ .other ∧ isRelative importRef = true then
    ((lexicalJoin (dirOf importerFile) importRef).map (relativeFileCandidates · dialect)).getD []
  else if dialect = .cFamily ∧ hasPathSep importRef = false then quotedIncludeCandidates importRef importerFile
  else []

end Relative

section Rust

/-- `split("::")` -/
def splitPath : Text → List Text
  | [] => [[]]
  | ':' :: ':' :: s => [] :: splitPath s
  | c :: s =>
    match splitPath s with
    | [] => [[c]]
    | part :: parts => (c :: part) :: parts

/-- The text in front of an occurrence, and what follows it. -/
def around (file after : Text) : Text × Text := (file.take (file.length - after.length), after)

/-- What follows the last `marker` that starts the file or a segment of it. -/
def afterMarker (marker file : Text) : Option Text :=
  match afterLast ('/' :: marker) file with
  | some after => some after
  | none => file.dropPrefix? marker

def markerLayout (file : Text) (marker : Text) : Option (Text × Bool) :=
  (afterMarker marker file).map fun after =>
    match splitOnce '/' after with
    | some (_, rest) => ((around file rest).1, rest == "main.rs".toList)
    | none => ((around file after).1, true)

def rustCrateLayout (file : Text) : Option (Text × Bool) :=
  match afterMarker "src/".toList file with
  | some after =>
    if !("bin/".toList.isPrefixOf after) then
      some ((around file after).1, after == "lib.rs".toList || after == "main.rs".toList)
    else ["src/bin/", "tests/", "benches/", "examples/"].map String.toList |>.findSome? (markerLayout file)
  | none => ["src/bin/", "tests/", "benches/", "examples/"].map String.toList |>.findSome? (markerLayout file)

/-- `trim_end_matches(".rs")` -/
def trimRs : Nat → Text → Text
  | 0, s => s
  | n + 1, s =>
    match s.dropSuffix? ".rs".toList with
    | some rest => trimRs n rest
    | none => s

/-- The leading `super` segments, each one directory up. -/
def climb : List Text → List Text → Option (List Text × List Text)
  | parts, [] => some (parts, [])
  | parts, seg :: segs =>
    if seg = "super".toList then if parts.isEmpty then none else climb parts.dropLast segs
    else some (parts, seg :: segs)

/-- `rust_module_candidates` of a module that starts with neither `crate` nor `self` nor `super` -/
def rustPlainCandidates (module importerFile : Text) : List Text :=
  if module.isEmpty || module == "crate".toList then []
  else
    let modulePath := ['/'].intercalate (splitPath module)
    match rustCrateLayout importerFile with
    | some (srcRoot, _) => [srcRoot ++ modulePath ++ ".rs".toList, srcRoot ++ modulePath ++ "/mod.rs".toList]
    | none =>
      [modulePath ++ ".rs".toList, modulePath ++ "/mod.rs".toList, "src/".toList ++ modulePath ++ ".rs".toList,
        "src/".toList ++ modulePath ++ "/mod.rs".toList]

def rustGlobModuleCandidates (module importerFile : Text) : List Text :=
  let (root, isRoot) := (rustCrateLayout importerFile).getD ([], false)
  let relative := importerFile.drop root.length
  let parts := Segments.split (trimRs relative.length relative)
  let parts :=
    if isRoot then []
    else if parts.getLast?.any fun p => ["lib", "main", "mod"].map String.toList |>.contains p then parts.dropLast
    else parts
  let start : Option (List Text × List Text) :=
    match splitPath module with
    | [] => none
    | first :: rest =>
      if first = "crate".toList then some ([], rest)
      else if first = "self".toList then some (parts, rest)
      else climb parts (first :: rest)
  -- any other first segment: `rust_module_candidates` does not come back here
  if (splitPath module).head?.all fun s => ["crate", "self", "super"].map String.toList |>.contains s then
    match start with
    | none => []
    | some (parts, moduleParts) =>
      let parts := parts ++ moduleParts
      if parts.isEmpty then
        if isRoot then [importerFile] else [root ++ "lib.rs".toList, root ++ "main.rs".toList]
      else
        let path := Segments.join parts
        [root ++ path ++ ".rs".toList, root ++ path ++ "/mod.rs".toList]
  else rustPlainCandidates module importerFile

def rustModuleCandidates (module importerFile : Text) : List Text :=
  if (splitPath module).head?.any fun s => ["crate", "self", "super"].map String.toList |>.contains s then
    rustGlobModuleCandidates module importerFile
  else rustPlainCandidates module importerFile

/-- `rust_module_subtree` -/
def rustModuleSubtree (defFile : Text) : Option Text :=
  let (dir, name) := (rsplitOnce '/' defFile).getD ([], defFile)
  (name.dropSuffix? ".rs".toList).map fun stem =>
    let dirPrefix := if dir.isEmpty then [] else dir ++ ['/']
    if (["mod", "lib", "main"].map String.toList).contains stem || (rustCrateLayout defFile).any Prod.snd then dirPrefix
    else dirPrefix ++ stem ++ ['/']

end Rust

section Python

variable (alnum : Char → Bool)

def isPythonPath (path : Text) : Bool := ".py".toList.isSuffixOf path || ".pyi".toList.isSuffixOf path

/-- The module of a `from … import *`. -/
def stripStar (module : Text) : Text :=
  match module.dropSuffix? ['*'] with
  | none => module
  | some stem => if stem.all (· == '.') then stem else (stem.dropSuffix? ['.']).getD stem

def moduleCandidates (module file : Text) : List Text :=
  let module := stripStar module
  let dots := (module.takeWhile (· == '.')).length
  let name := module.drop dots
  if !name.isEmpty && !(name.splitOn '.').all fun part => !part.isEmpty && part.all fun c => alnum c || c == '_' then []
  else
    let parts := if dots = 0 then [] else (Segments.split (dirOf file)).filter fun p => !p.isEmpty
    if parts.length < dots - 1 then []
    else
      let parts := parts.take (parts.length - (dots - 1)) ++ (name.splitOn '.').filter fun p => !p.isEmpty
      let path := Segments.join parts
      (if path.isEmpty then ["__init__.py".toList] else [path ++ "/__init__.py".toList, path ++ ".py".toList]) ++
        (if dots = 0 then ["src/".toList ++ path ++ "/__init__.py".toList, "src/".toList ++ path ++ ".py".toList] else [])

end Python

section Targets

variable (alnum : Char → Bool)

def importPathTargetsFile (spec callerFile symFile : Text) : Bool :=
  if ".rs".toList.isSuffixOf callerFile && "./".toList.isPrefixOf spec then
    ((rustModuleSubtree callerFile).bind fun base => lexicalJoin (base.rdropWhile (· == '/')) spec).any fun path =>
      symFile == path ++ ".rs".toList || symFile == path ++ "/mod.rs".toList
  else if isRelative spec then
    match lexicalJoin (dirOf callerFile) spec with
    | some resolved => relativeFileMatches resolved symFile (importerDialect callerFile)
    | none => false
  else if importerDialect callerFile = .javaScript ∨ importerDialect callerFile = .typeScript then false
  else spec == symFile || ('/' :: spec).isSuffixOf symFile

def importRefTargetsFile (importRef importerFile targetFile : Text) : Bool :=
  if isPythonPath importerFile && isPythonPath targetFile then
    (moduleCandidates alnum importRef importerFile).any (· == targetFile)
  else if isRelative importRef then importPathTargetsFile importRef importerFile targetFile
  else if hasPathSep importRef then
    match importRef.dropSuffix? "::*".toList with
    | some module => (rustGlobModuleCandidates module importerFile).any (· == targetFile)
    | none =>
      if (rustModuleCandidates importRef importerFile).any (· == targetFile) then true
      else
        (afterLast "::".toList importRef).any fun item =>
          (rustModuleCandidates (importRef.take (importRef.length - item.length - 2)) importerFile).any (· == targetFile)
  else
    importerDialect importerFile = .cFamily && (quotedIncludeCandidates importRef importerFile).any (· == targetFile)

end Targets

end ImportPaths
end Graph
end CodeSage
