import CodeSage.Graph.Impact

/-!
# CodeSage.Graph.WalkCache

The cache that impact walks share, `WalkCache` (`crates/graph/src/impact.rs`), and a sequence of walks without a budget
over one cache.

The database is what the walks ask of it. The sizes of rows that the byte cap goes by are functions of the rows. Whether
`resolve_callee_definitions_with_modules` asks for the imports of its caller is a function too, as it is the only part of
it that goes through the cache.
-/

namespace CodeSage
namespace Graph
namespace Impact

open Lib

structure Database (Symbol File Name Kind Site Modules : Type) where
  name : Symbol → Name
  filePath : Symbol → File
  /-- the symbol that a reference counts for -/
  owner : Reference File Name Kind → Option Symbol
  findReferences : Name → List (Reference File Name Kind)
  /-- `python_bindings::resolve_reference` -/
  pythonBinding : Reference File Name Kind → Option (List Symbol)
  isPackageImport : Reference File Name Kind → Bool
  importRefsForFile : File → List Name
  asksImports : File → Name → Modules → Bool
  resolveCalleeDefinitions : File → Name → List Name → Modules → List Symbol
  fileImportReferences : List (Reference File Name Kind)
  isImport : Kind → Bool
  /-- `PythonImportSite` -/
  site : Reference File Name Kind → Site
  pythonImportTargets : Site → List File
  isPythonPath : File → Bool
  /-- `ends_with(".rs")` -/
  isRustPath : File → Bool
  importRefTargetsFile : Name → File → File → Modules → Bool
  /-- `RustModules::load` -/
  rustModules : Modules
  /-- `RustModules::default` -/
  noModules : Modules
  cappedModules : Modules → Bool
  referenceBytes : Symbol → List (Reference File Name Kind) → Nat
  resolutionBytes : File × Name → List Symbol → Nat
  callerImportBytes : File → List Name → Nat
  indexedBytes : Nat
  pythonImportBytes : Site → List File → Nat
  importMatchBytes : File → List Nat → Nat

structure WalkCache (Symbol File Name Kind Site Modules : Type) where
  references : Table Symbol (List (Reference File Name Kind))
  resolutions : Table (File × Name) (List Symbol)
  callerImports : Table File (List Name)
  referenceBytes : Nat
  /-- whether `python_indexed` is there -/
  pythonIndexed : Bool
  pythonImports : Table Site (List File)
  importMatches : Table File (List Nat)
  rustModules : Option Modules

namespace WalkCache

variable {Symbol File Name Kind Site Modules : Type} [DecidableEq Symbol] [DecidableEq File] [DecidableEq Name]
  [DecidableEq Site] (db : Database Symbol File Name Kind Site Modules)

def empty : WalkCache Symbol File Name Kind Site Modules := ⟨∅, ∅, ∅, 0, false, ∅, ∅, none⟩

def MAX_SYMBOLS : Nat := 8192

def MAX_REFERENCE_BYTES : Nat := 16 * 1024 * 1024

variable (cache : WalkCache Symbol File Name Kind Site Modules)

def entryCount : Nat :=
  cache.references.keys.length + cache.importMatches.keys.length + cache.resolutions.keys.length +
    cache.callerImports.keys.length + cache.pythonImports.keys.length

/-- Whether a row of this size is kept. -/
def hasRoom (bytes : Nat) : Bool :=
  cache.entryCount < MAX_SYMBOLS && bytes ≤ MAX_REFERENCE_BYTES - cache.referenceBytes

/-- `rust_modules` -/
def loadModules : Modules × WalkCache Symbol File Name Kind Site Modules :=
  match cache.rustModules with
  | some modules => (modules, cache)
  | none => (db.rustModules, { cache with rustModules := some db.rustModules })

/-- `caller_imports` -/
def importsOf (file : File) : List Name × WalkCache Symbol File Name Kind Site Modules :=
  match cache.callerImports.lookup file with
  | some imports => (imports, cache)
  | none =>
    let imports := db.importRefsForFile file
    let bytes := db.callerImportBytes file imports
    if cache.hasRoom bytes then
      (imports, { cache with
        referenceBytes := cache.referenceBytes + bytes, callerImports := cache.callerImports.insert file imports })
    else (imports, cache)

def resolveSymbols (file : File) (spelling : Name) : List Symbol × WalkCache Symbol File Name Kind Site Modules :=
  let modules := if db.isRustPath file then loadModules db cache else (db.noModules, cache)
  if db.asksImports file spelling modules.1 then
    let imports := importsOf db modules.2 file
    (db.resolveCalleeDefinitions file spelling imports.1 modules.1, imports.2)
  else (db.resolveCalleeDefinitions file spelling [] modules.1, modules.2)

def resolve (file : File) (spelling : Name) : List Symbol × WalkCache Symbol File Name Kind Site Modules :=
  match cache.resolutions.lookup (file, spelling) with
  | some rows => (rows, cache)
  | none =>
    let rows := resolveSymbols db cache file spelling
    let bytes := db.resolutionBytes (file, spelling) rows.1
    if rows.2.hasRoom bytes then
      (rows.1, { rows.2 with
        referenceBytes := rows.2.referenceBytes + bytes
        resolutions := rows.2.resolutions.insert (file, spelling) rows.1 })
    else rows

/-- `resolve_references_to_symbol`: the rows that resolve to the symbol. `seen` is its own memo. -/
def resolveReferencesToSymbol (symbol : Symbol) : List (Reference File Name Kind) → Table (File × Name) (List Symbol) →
    WalkCache Symbol File Name Kind Site Modules →
    List (Reference File Name Kind) × WalkCache Symbol File Name Kind Site Modules
  | [], _, cache => ([], cache)
  | r :: rest, seen, cache =>
    match db.pythonBinding r with
    | some resolved =>
      let others := resolveReferencesToSymbol symbol rest seen cache
      (if symbol ∈ resolved then r :: others.1 else others.1, others.2)
    | none =>
      if db.isPackageImport r then resolveReferencesToSymbol symbol rest seen cache
      else
        let known := match seen.lookup (r.fromFile, r.toName) with
          | some rows => (rows, seen, cache)
          | none =>
            let rows := resolve db cache r.fromFile r.toName
            (rows.1, seen.insert (r.fromFile, r.toName) rows.1, rows.2)
        let others := resolveReferencesToSymbol symbol rest known.2.1 known.2.2
        (if symbol ∈ known.1 then r :: others.1 else others.1, others.2)

/-- `references` -/
def referencesOf (symbol : Symbol) : List (Reference File Name Kind) × WalkCache Symbol File Name Kind Site Modules :=
  match cache.references.lookup symbol with
  | some rows => (rows, cache)
  | none =>
    let rows := resolveReferencesToSymbol db symbol (db.findReferences (db.name symbol)) ∅ cache
    let bytes := db.referenceBytes symbol rows.1
    if rows.2.hasRoom bytes then
      (rows.1, { rows.2 with
        referenceBytes := rows.2.referenceBytes + bytes, references := rows.2.references.insert symbol rows.1 })
    else rows

/-- `python_import_targets` -/
def pythonTargets (row : Reference File Name Kind) : List File × WalkCache Symbol File Name Kind Site Modules :=
  if !db.isImport row.kind then ([], cache)
  else
    match cache.pythonImports.lookup (db.site row) with
    | some targets => (targets, cache)
    | none =>
      let indexed : WalkCache Symbol File Name Kind Site Modules :=
        if !cache.pythonIndexed && decide (db.indexedBytes ≤ MAX_REFERENCE_BYTES - cache.referenceBytes) then
          { cache with referenceBytes := cache.referenceBytes + db.indexedBytes, pythonIndexed := true }
        else cache
      let targets := db.pythonImportTargets (db.site row)
      let bytes := db.pythonImportBytes (db.site row) targets
      if indexed.hasRoom bytes then
        (targets, { indexed with
          referenceBytes := indexed.referenceBytes + bytes
          pythonImports := indexed.pythonImports.insert (db.site row) targets })
      else (targets, indexed)

def rememberImports (file : File) (rows : List Nat) : WalkCache Symbol File Name Kind Site Modules :=
  let bytes := db.importMatchBytes file rows
  if cache.hasRoom bytes then
    { cache with
      referenceBytes := cache.referenceBytes + bytes, importMatches := cache.importMatches.insert file rows }
  else cache

/-- `context_capped` -/
def contextCapped : Bool := cache.rustModules.any db.cappedModules

/-- The lookups of a walk in this module context. -/
def lookup (modules : Modules) :
    Lookup Symbol File Name Kind (WalkCache Symbol File Name Kind Site Modules) where
  name := db.name
  filePath := db.filePath
  cost := fun _ => 0
  references := fun cache symbol => referencesOf db cache symbol
  fileImports := db.fileImportReferences
  cachedMatches := fun cache file => cache.importMatches.lookup file
  targetsFile := fun cache r file =>
    if db.isPythonPath r.fromFile then
      let targets := pythonTargets db cache r
      (decide (file ∈ targets.1), targets.2)
    else (db.importRefTargetsFile r.toName r.fromFile file modules, cache)
  rememberImports := fun cache file rows => rememberImports db cache file rows
  owner := db.owner
  contextCapped := fun cache => contextCapped db cache

end WalkCache

section Walks

variable {Symbol File Name Kind Site Modules : Type} [DecidableEq Symbol] [LinearOrder File] [DecidableEq Name]
  [DecidableEq Kind] [DecidableEq Site] (db : Database Symbol File Name Kind Site Modules)

/-- A walk starts from a Rust file. -/
def rustRoot (req : ImpactRequest Symbol File) : Bool :=
  req.target.files.any db.isRustPath || req.target.seeds.any fun symbol => db.isRustPath (db.filePath symbol)

/-- The module context of a walk. -/
def rustModulesFor (req : ImpactRequest Symbol File) : Modules :=
  if rustRoot db req then db.rustModules else db.noModules

/-- A call without a budget. -/
structure Call (Symbol File : Type) where
  request : ImpactRequest Symbol File
  maxFrontier : Nat
  isSource : File → Bool

def Call.walk (call : Call Symbol File) (cache : WalkCache Symbol File Name Kind Site Modules) :
    Option (Outcome File Name Kind × WalkCache Symbol File Name Kind Site Modules) :=
  let cache := if rustRoot db call.request then (WalkCache.loadModules db cache).2 else cache
  impactAnalysisWalkShared (WalkCache.lookup db (rustModulesFor db call.request)) call.request call.maxFrontier
    call.isSource none cache

/-- The call with a cache of its own. -/
def Call.alone (call : Call Symbol File) : Option (Outcome File Name Kind) :=
  (call.walk db WalkCache.empty).map (·.1)

/-- The calls, one after the other over one cache. -/
def sharedWalks : List (Call Symbol File) → WalkCache Symbol File Name Kind Site Modules →
    Option (List (Outcome File Name Kind))
  | [], _ => some []
  | call :: calls, cache =>
    match call.walk db cache with
    | none => none
    | some (outcome, cache) => (sharedWalks calls cache).map (outcome :: ·)

end Walks

end Impact
end Graph
end CodeSage
