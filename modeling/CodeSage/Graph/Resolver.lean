import Mathlib.Data.List.Sort
import Mathlib.Data.List.DropRight
import CodeSage.Protocol.HandleCorrect
import CodeSage.Lib.Text

/-!
# CodeSage.Graph.Resolver

The target resolver (`crates/graph/src/resolver.rs`): what a string names in an index, tried in one fixed
order of grammar arms. Handles are written from the `overloaded` flag of the rows a storage query returned
(`mark_overloads` in `crates/protocol/src/handle.rs`) and are read back by another query.

The index is the part of the database the resolver queries. `resolve_callee_definitions` returns rows of
`find_symbols` and `symbols_for_file`, whatever evidence it goes by: here it names the rows it picks.
-/

namespace CodeSage
namespace Graph
namespace Resolver

open Lib CodeSage.Protocol

inductive SymbolKind where
  | function | method | class_ | trait | interface | struct | enum | constant | macro_ | module | namespace_
  deriving DecidableEq, Repr

/-- `Symbol`, with the fields the resolver reads -/
structure Definition where
  name : Text
  qualifiedName : Text
  kind : SymbolKind
  filePath : Text
  lineStart : UInt32
  lineEnd : UInt32
  isTest : Bool := false
  overloaded : Bool := false
  deriving DecidableEq, Repr

/-- The name a handle writes. -/
def Definition.address (s : Definition) : Text := if s.qualifiedName.isEmpty then s.name else s.qualifiedName

/-- `Symbol::handle` -/
def Definition.handle (s : Definition) : Handle :=
  .symbol s.filePath s.address (if s.overloaded then some s.lineStart else none)

/-- `mark_overloads` -/
def markOverloads (symbols : List Definition) : List Definition :=
  symbols.map fun s => { s with
    overloaded := 1 < symbols.countP fun t => t.filePath = s.filePath && t.qualifiedName = s.qualifiedName }

inductive FeatureKind where
  | cliCommand | route | service | library | testSuite | config | job | unknown
  deriving DecidableEq, Repr

/-- `FeatureRecord`, with the fields the resolver reads -/
structure Feature where
  featureId : Text
  kind : FeatureKind
  entryPath : Text
  entryRoute : Option Text := none
  entryCommand : Option Text := none
  deriving DecidableEq, Repr

/-- The storage reads that return definitions. -/
inductive Query where
  | findSymbols (name : Text)
  | symbolsForFile (path : Text)
  deriving DecidableEq, Repr

/-- `feature_id::build`: `feat_` and the first eight bytes of a digest in hexadecimal -/
def Feature.Derived (f : Feature) : Prop :=
  ∃ hex, f.featureId = Handle.FEATURE_PREFIX ++ hex ∧ hex.length = Handle.FEATURE_HEX_LEN
    ∧ ∀ c ∈ hex, c ∈ Handle.HEX

theorem nothing_derived : ∀ f ∈ ([] : List Feature), f.Derived := nofun

/-- The rows the resolver can read. A symbol row is joined with its file, paths are repository-relative,
and features are keyed by the id they were given. -/
structure Index where
  files : List Text
  symbols : List Definition
  features : List Feature
  /-- The rows `resolve_callee_definitions` picks for a caller file and a name: the position in a query. -/
  callees : Text → Text → List (Query × Nat)
  /-- `is_test_path` -/
  isTestPath : Text → Bool
  paths_valid : ∀ path ∈ files, Handle.validPath path = true
  symbols_joined : ∀ s ∈ symbols, s.filePath ∈ files
  ids_derived : ∀ f ∈ features, f.Derived
  ids_unique : (features.map (·.featureId)).Nodup

/-- `contains` of a text -/
def holdsText (sub s : Text) : Bool := s.tails.any (sub.isPrefixOf ·)

/-- `is_qualified_symbol_name` (`crates/graph/src/impact.rs`), and the test `find_symbols` makes -/
def isQualifiedSymbolName (name : Text) : Bool :=
  name.contains '\\' || name.contains '.' || holdsText [':', ':'] name

/-- `find_symbols`: all definitions under a qualified or a short name -/
def findSymbols (db : Index) (name : Text) : List Definition :=
  markOverloads (db.symbols.filter fun s =>
    if isQualifiedSymbolName name then s.qualifiedName = name else s.name = name)

/-- `symbols_for_file`, in line order -/
def symbolsForFile (db : Index) (path : Text) : List Definition :=
  markOverloads ((db.symbols.filter (·.filePath = path)).insertionSort (·.lineStart ≤ ·.lineStart))

def Index.run (db : Index) : Query → List Definition
  | .findSymbols name => findSymbols db name
  | .symbolsForFile path => symbolsForFile db path

/-- `file_id_for_path(path).is_some()` -/
def Index.holdsFile (db : Index) (path : Text) : Bool := db.files.contains path

/-- `load_feature` -/
def loadFeature (db : Index) (id : Text) : Option Feature := db.features.find? (·.featureId = id)

/-- `resolve_callee_definitions` -/
def resolveCalleeDefinitions (db : Index) (fromFile name : Text) : List Definition :=
  (db.callees fromFile name).filterMap fun pick => (db.run pick.1)[pick.2]?

inductive TargetKind where
  | symbol | file | dir | chunk | feature | route | command | text
  deriving DecidableEq, Repr

inductive ResolveVia where
  | exact | qualified | unique | imports | casefold | suffix
  deriving DecidableEq, Repr

/-- The `kind` of a candidate: the symbol kind for a symbol, else the target kind. -/
inductive CandidateKind where
  | symbol (kind : SymbolKind)
  | file | dir | chunk | feature
  deriving DecidableEq, Repr

structure ResolvedTarget where
  handle : Text
  kind : CandidateKind
  path : Option Text
  lineStart : Option UInt32
  lineEnd : Option UInt32
  isTest : Bool
  via : ResolveVia
  deriving DecidableEq, Repr

structure TargetResolution where
  input : Text
  kind : TargetKind
  resolved : List ResolvedTarget
  ambiguous : Bool
  candidatesTotal : Nat
  overloads : Nat
  deriving DecidableEq, Repr

/-- `TargetResolution::new` -/
def TargetResolution.new (input : Text) (kind : TargetKind) (resolved : List ResolvedTarget)
    (candidatesTotal overloads : Nat) : TargetResolution :=
  { input, kind, resolved, candidatesTotal, overloads, ambiguous := 1 < candidatesTotal }

/-- `TargetResolution::text` -/
def TargetResolution.text (input : Text) : TargetResolution := .new input .text [] 0 0

def one (input : Text) (kind : TargetKind) (candidate : ResolvedTarget) : TargetResolution :=
  .new input kind [candidate] 1 0

def DEFAULT_CANDIDATE_LIMIT : Nat := 10

def MAX_NEAREST : Nat := 10

structure ResolveOptions where
  kindHint : Option TargetKind := none
  fromFile : Option Text := none
  includeModules : Bool := false
  kind : Option SymbolKind := none
  limit : Nat := DEFAULT_CANDIDATE_LIMIT
  nearest : Bool := true
  deriving DecidableEq, Repr

/-- A `mod x;` declaration: no body on its own line. -/
def isModuleDeclaration (s : Definition) : Bool :=
  (s.kind = .module || s.kind = .namespace_) && s.lineStart = s.lineEnd

def retainDefinitions (symbols : List Definition) (includeModules : Bool) : List Definition :=
  if includeModules then symbols else symbols.filter (!isModuleDeclaration ·)

namespace ResolveOptions

def retainKind (opts : ResolveOptions) (symbols : List Definition) : List Definition :=
  match opts.kind with
  | some kind => symbols.filter (·.kind = kind)
  | none => symbols

def retain (opts : ResolveOptions) (symbols : List Definition) : List Definition :=
  opts.retainKind (retainDefinitions symbols opts.includeModules)

def allowsPaths (opts : ResolveOptions) : Bool :=
  opts.kindHint ∈ [none, some .file, some .dir, some .chunk]

def allowsSymbols (opts : ResolveOptions) : Bool := opts.kindHint ∈ [none, some .symbol]

def allowsFeatures (opts : ResolveOptions) : Bool :=
  opts.kindHint ∈ [none, some .feature, some .route, some .command]

end ResolveOptions

def candidateOf (s : Definition) (via : ResolveVia) : ResolvedTarget :=
  { handle := s.handle.toText, kind := .symbol s.kind, isTest := s.isTest, path := some s.filePath,
    lineStart := some s.lineStart, lineEnd := some s.lineEnd, via }

def fileCandidate (db : Index) (path : Text) (via : ResolveVia) : ResolvedTarget :=
  { handle := ((Handle.ofFile path).map Handle.toText).getD [], kind := .file, path := some path,
    lineStart := none, lineEnd := none, isTest := db.isTestPath path, via }

def featureCandidate (f : Feature) (via : ResolveVia) : ResolvedTarget :=
  { handle := f.featureId, kind := .feature, path := some f.entryPath, lineStart := none, lineEnd := none,
    isTest := false, via }

def candidates (symbols : List Definition) (via : ResolveVia) (limit : Nat) : List ResolvedTarget :=
  (symbols.take limit).map (candidateOf · via)

/-- The order of strings: by code point, as their bytes compare. -/
def textLe (a b : Text) : Bool := !decide (b < a)

def definitionLe (a b : Definition) : Bool :=
  if a.filePath ≠ b.filePath then textLe a.filePath b.filePath
  else if a.lineStart ≠ b.lineStart then a.lineStart ≤ b.lineStart
  else textLe a.qualifiedName b.qualifiedName

/-- `sort_definitions` -/
def sortDefinitions (symbols : List Definition) : List Definition :=
  symbols.insertionSort (definitionLe · ·)

def identity (s : Definition) : Text × Text × UInt32 := (s.filePath, s.qualifiedName, s.lineStart)

/-- `names` -/
def names (s : Definition) (qualified : Text) : Bool :=
  s.qualifiedName = qualified || (s.qualifiedName.isEmpty && s.name = qualified)

/-- `strip_current_dir` -/
def stripCurrentDir : Text → Text
  | '.' :: '/' :: rest => stripCurrentDir rest
  | input => input

/-- `split_path_line` -/
def splitPathLine (input : Text) : Option (Text × UInt32) :=
  match rsplitOnce ':' input with
  | some (path, digits) =>
    if path.isEmpty then none else (Handle.parseLine digits).map (path, ·)
  | none => none

/-- `max_by_key(line_start)`: the last of the greatest -/
def innermost (symbols : List Definition) : Option Definition :=
  symbols.foldl (fun best s =>
    match best with
    | some b => if b.lineStart ≤ s.lineStart then some s else some b
    | none => some s) none

/-- The definitions holding a line. -/
def enclosing (db : Index) (path : Text) (line : UInt32) (opts : ResolveOptions) : List Definition :=
  (opts.retain (symbolsForFile db path)).filter fun s => s.lineStart ≤ line && line ≤ s.lineEnd

/-- What a grammar arm answers: the resolution and the definitions behind it. -/
abbrev Answer := TargetResolution × List Definition

/-- `resolve_path_line` -/
def resolvePathLine (db : Index) (input path : Text) (line : UInt32) (opts : ResolveOptions) : Answer :=
  match innermost (enclosing db path line opts) with
  | some s =>
    (.new input .symbol (candidates [s] .exact opts.limit) 1 (if s.overloaded then 1 else 0), [s])
  | none =>
    (one input .file { fileCandidate db path .exact with lineStart := some line, lineEnd := some line }, [])

/-- `narrow_by_imports` -/
def narrowByImports (db : Index) (fromFile name : Text) (symbols : List Definition) : Option Definition :=
  match resolveCalleeDefinitions db fromFile name with
  | [only] => if symbols.any (identity · = identity only) then some only else none
  | _ => none

/-- What the imports of the calling file narrow a shared name to. -/
def narrowed (db : Index) (input : Text) (opts : ResolveOptions) (symbols : List Definition) :
    Option Definition :=
  if 1 < symbols.length then opts.fromFile.bind (narrowByImports db · input symbols) else none

def countOverloads (symbols : List Definition) : Nat := symbols.countP (·.overloaded)

/-- `resolve_symbol_name` -/
def resolveSymbolName (db : Index) (input : Text) (opts : ResolveOptions) : Option Answer :=
  let symbols := sortDefinitions (opts.retain (findSymbols db input))
  if symbols.isEmpty then none
  else
    match narrowed db input opts symbols with
    | some only => some (one input .symbol (candidateOf only .imports), [only])
    | none =>
      let via := if isQualifiedSymbolName input then .qualified else .unique
      some (.new input .symbol (candidates symbols via opts.limit) symbols.length (countOverloads symbols),
        symbols)

/-- `case_variants`: the spellings that differ only in ASCII case -/
def caseVariants (input : Text) : List Text :=
  let lower := input.map Char.toLower
  let upper := input.map Char.toUpper
  let capitalized := match lower with
    | c :: rest => c.toUpper :: rest
    | [] => []
  [lower, upper, capitalized].foldl (fun out variant =>
    if variant ≠ input && !out.contains variant then out ++ [variant] else out) []

/-- `last_segment`: the separator that cuts furthest right leaves the shortest tail -/
def lastSegment (name : Text) : Option Text :=
  let tails := [[':', ':'], ['\\'], ['.'], ['/']].filterMap (afterLast · name)
  match tails.insertionSort (·.length ≤ ·.length) with
  | tail :: _ => if tail.isEmpty || tail = name then none else some tail
  | [] => none

/-- Leads found so far; `seen` is the identities of what was found. -/
abbrev Leads := List (Definition × ResolveVia)

def addLeads (via : ResolveVia) (found : Leads) (symbols : List Definition) : Leads :=
  symbols.foldl (fun found s =>
    if found.any (identity ·.1 = identity s) then found else found ++ [(s, via)]) found

def leadLe (a b : Definition × ResolveVia) : Bool :=
  if a.1.filePath ≠ b.1.filePath then textLe a.1.filePath b.1.filePath else a.1.lineStart ≤ b.1.lineStart

/-- The definitions whose name differs only in case. -/
def casefolded (db : Index) (input : Text) (opts : ResolveOptions) : Leads :=
  (caseVariants input).foldl (fun found variant =>
    addLeads .casefold found (opts.retain (findSymbols db variant))) []

def leads (db : Index) (input : Text) (opts : ResolveOptions) : Leads :=
  let found := casefolded db input opts
  if found.isEmpty then
    match lastSegment input with
    | some tail => addLeads .suffix [] (opts.retain (findSymbols db tail))
    | none => []
  else found

/-- `nearest_symbols` -/
def nearestSymbols (db : Index) (input : Text) (opts : ResolveOptions) : Option Answer :=
  let found := (leads db input opts).insertionSort (leadLe · ·)
  if found.isEmpty then none
  else
    let resolved := (found.take (min opts.limit MAX_NEAREST)).map fun lead => candidateOf lead.1 lead.2
    some (.new input .symbol resolved found.length 0, found.map (·.1))

/-- `path_suffix_matches` -/
def pathSuffixMatches (indexed input : Text) (fold : Bool) : Bool :=
  let indexed := if fold then indexed.map Char.toLower else indexed
  let input := if fold then input.map Char.toLower else input
  indexed = input ||
    match indexed.dropSuffix? input with
    | some head => head.getLast? = some '/'
    | none => false

/-- `nearest_paths` -/
def nearestPaths (db : Index) (input : Text) (opts : ResolveOptions) : Option TargetResolution :=
  if !input.contains '/' && !input.contains '.' then none
  else
    let suffix := db.files.filter (pathSuffixMatches · input false)
    let matched := if suffix.isEmpty then db.files.filter (pathSuffixMatches · input true) else suffix
    let via := if suffix.isEmpty then .casefold else .suffix
    if matched.isEmpty then none
    else
      let resolved := (matched.take (min opts.limit MAX_NEAREST)).map (fileCandidate db · via)
      some (.new input .file resolved matched.length 0)

/-- `moved_definition` -/
def movedDefinition (db : Index) (input qualified : Text) (opts : ResolveOptions) : Option Answer :=
  let symbols := sortDefinitions (opts.retain (findSymbols db qualified))
  if symbols.isEmpty then
    (nearestSymbols db qualified opts).map fun answer => ({ answer.1 with input }, answer.2)
  else some (.new input .symbol (candidates symbols .suffix opts.limit) symbols.length 0, symbols)

/-- The definitions of a file a symbol handle names. -/
def namedBy (db : Index) (path qualified : Text) (line : Option UInt32) (opts : ResolveOptions) :
    List Definition :=
  sortDefinitions (opts.retainKind
    (((symbolsForFile db path).filter (names · qualified)).filter fun s => line.all (s.lineStart = ·)))

/-- `resolve_handle`, for a symbol -/
def resolveSymbolHandle (db : Index) (input path qualified : Text) (line : Option UInt32)
    (opts : ResolveOptions) : Answer :=
  let symbols := namedBy db path qualified line opts
  let found := (.new input .symbol (candidates symbols .exact opts.limit) symbols.length (countOverloads symbols),
    symbols)
  if symbols.isEmpty && opts.nearest then (movedDefinition db input qualified opts).getD found else found

/-- `resolve_handle` -/
def resolveHandle (db : Index) (input : Text) (handle : Handle) (opts : ResolveOptions) : Answer :=
  match handle with
  | .symbol path qualified line => resolveSymbolHandle db input path qualified line opts
  | .file path =>
    (if db.holdsFile path then one input .file (fileCandidate db path .exact) else .new input .file [] 0 0, [])
  | .dir path =>
    let dirPrefix := path.rdropWhile (· = '/') ++ ['/']
    let candidate : ResolvedTarget := {
      handle := (Handle.dir path).toText, kind := .dir, path := some path, lineStart := none,
      lineEnd := none, isTest := false, via := .exact }
    (if db.files.any (dirPrefix.isPrefixOf ·) then one input .dir candidate else .new input .dir [] 0 0, [])
  | .chunk path start stop =>
    let candidate : ResolvedTarget := {
      handle := (Handle.chunk path start stop).toText, kind := .chunk, isTest := db.isTestPath path,
      path := some path, lineStart := some start, lineEnd := some stop, via := .exact }
    (if db.holdsFile path then one input .chunk candidate else .new input .chunk [] 0 0, [])
  | .feature id =>
    (match loadFeature db id with
      | some f => one input .feature (featureCandidate f .exact)
      | none => .new input .feature [] 0 0, [])

def featureLe (a b : Feature) : Bool :=
  if a.entryPath ≠ b.entryPath then textLe a.entryPath b.entryPath else textLe a.featureId b.featureId

/-- `list_features(kind)` -/
def listFeatures (db : Index) (kind : FeatureKind) : List Feature :=
  (db.features.filter (·.kind = kind)).insertionSort (featureLe · ·)

/-- `resolve_feature_entry` -/
def resolveFeatureEntry (db : Index) (input entry : Text) (kind : TargetKind) (opts : ResolveOptions) :
    TargetResolution :=
  let featureKind := if kind = .route then FeatureKind.route else .cliCommand
  let found := (listFeatures db featureKind).filter fun f =>
    let stored := if kind = .route then f.entryRoute else f.entryCommand
    stored.any fun stored => stored.map Char.toLower = entry.map Char.toLower
  .new input kind ((found.take opts.limit).map (featureCandidate · .exact)) found.length 0

def ROUTE : Text := ['r', 'o', 'u', 't', 'e', ':']

def CMD : Text := ['c', 'm', 'd', ':']

/-- The arms of `resolve_symbols` after the handle, in order; each is an early return. -/
def entryArm (db : Index) (trimmed : Text) (opts : ResolveOptions) : Option Answer :=
  if opts.allowsFeatures then
    match trimmed.dropPrefix? ROUTE with
    | some route => some (resolveFeatureEntry db trimmed (trim route) .route opts, [])
    | none =>
      match trimmed.dropPrefix? CMD with
      | some command => some (resolveFeatureEntry db trimmed (trim command) .command opts, [])
      | none => none
  else none

def pathArm (db : Index) (trimmed : Text) (opts : ResolveOptions) : Option Answer :=
  let path := stripCurrentDir trimmed
  if !opts.allowsPaths then none
  else if db.holdsFile path then some (one trimmed .file (fileCandidate db path .exact), [])
  else
    match splitPathLine path with
    | some (path, line) =>
      if db.holdsFile path then some (resolvePathLine db trimmed path line opts) else none
    | none => none

def symbolArm (db : Index) (trimmed : Text) (opts : ResolveOptions) : Option Answer :=
  if opts.allowsSymbols then resolveSymbolName db trimmed opts else none

def featureArm (db : Index) (trimmed : Text) (opts : ResolveOptions) : Option Answer :=
  if opts.allowsFeatures then
    (loadFeature db trimmed).map fun f => (one trimmed .feature (featureCandidate f .exact), [])
  else none

def nearestSymbolArm (db : Index) (trimmed : Text) (opts : ResolveOptions) : Option Answer :=
  if opts.nearest && opts.allowsSymbols then nearestSymbols db trimmed opts else none

def nearestPathArm (db : Index) (trimmed : Text) (opts : ResolveOptions) : Option Answer :=
  if opts.nearest && opts.allowsPaths then
    (nearestPaths db (stripCurrentDir trimmed) opts).map fun r => ({ r with input := trimmed }, [])
  else none

/-- `resolve_symbols` -/
def resolveSymbols (db : Index) (input : Text) (opts : ResolveOptions) : Answer :=
  let trimmed := trim input
  if trimmed.isEmpty then (.text trimmed, [])
  else
    match Handle.parse trimmed with
    | some handle => resolveHandle db trimmed handle opts
    | none =>
      (entryArm db trimmed opts
        <|> pathArm db trimmed opts
        <|> symbolArm db trimmed opts
        <|> featureArm db trimmed opts
        <|> nearestSymbolArm db trimmed opts
        <|> nearestPathArm db trimmed opts).getD (.text trimmed, [])

/-- `resolve_target` -/
def resolveTarget (db : Index) (input : Text) (opts : ResolveOptions) : TargetResolution :=
  (resolveSymbols db input opts).1

end Resolver
end Graph
end CodeSage
