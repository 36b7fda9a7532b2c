import CodeSage.Lib.Table
import Mathlib.Data.List.Sort

/-!
# CodeSage.Graph.Impact

The impact walk, `impact_analysis_walk_shared` (`crates/graph/src/impact.rs`): from the resolved target, references
are followed backwards level by level, and for a file target the imports of the files reached too.

What the walk asks of the database and of its cache is a `Lookup` with a state of its own. A symbol is known by its
identity key, with its name as a function of it. A clock answers each look at the deadline. Reading a row past the
end of the import list is a panic, `none`.
-/

namespace CodeSage
namespace Graph
namespace Impact

open Lib

structure Reference (File Name Kind : Type) where
  fromFile : File
  fromSymbol : Option Name
  toName : Name
  kind : Kind
  line : Nat
  deriving DecidableEq

/-- `ImpactReason`, and the key of a distinct reason. -/
structure Reason (Name Kind : Type) where
  viaSymbol : Name
  kind : Kind
  line : Nat
  deriving DecidableEq

/-- What the walk looks up. -/
structure Lookup (Symbol File Name Kind κ : Type) where
  name : Symbol → Name
  filePath : Symbol → File
  /-- `WalkBudget::cost` -/
  cost : Symbol → Nat
  /-- `WalkCache::references` -/
  references : κ → Symbol → List (Reference File Name Kind) × κ
  /-- `file_import_references` -/
  fileImports : List (Reference File Name Kind)
  /-- the rows of `import_matches` -/
  cachedMatches : κ → File → Option (List Nat)
  /-- whether an import matches a file -/
  targetsFile : κ → Reference File Name Kind → File → Bool × κ
  /-- `remember_imports` -/
  rememberImports : κ → File → List Nat → κ
  /-- the caller that a reference counts for -/
  owner : Reference File Name Kind → Option Symbol
  /-- `context_capped` -/
  contextCapped : κ → Bool

/-- The steps left, and a clock for the deadline. -/
structure Budget where
  remaining : Nat
  exhausted : Bool
  deadlineHit : Bool
  /-- Whether the deadline has passed at a look at the clock. -/
  clock : Nat → Bool
  looks : Nat

def Budget.overDeadline (b : Budget) : Bool × Budget :=
  if b.deadlineHit then (true, b)
  else if b.clock b.looks then
    (true, { b with deadlineHit := true, exhausted := true, looks := b.looks + 1 })
  else (false, { b with looks := b.looks + 1 })

def Budget.charge (b : Budget) (steps : Nat) : Budget := { b with remaining := b.remaining - steps }

/-- The resolved target. -/
inductive Resolved (Symbol File : Type) where
  | symbols (seeds : List Symbol)
  | file (path : File) (definitions : List Symbol)

structure ImpactRequest (Symbol File : Type) where
  target : Resolved Symbol File
  /-- `ImpactTarget::File` -/
  fileForm : Bool
  depth : Nat
  sourceOnly : Bool

def Resolved.seeds {Symbol File : Type} : Resolved Symbol File → List Symbol
  | .symbols seeds => seeds
  | .file _ definitions => definitions

def Resolved.files {Symbol File : Type} : Resolved Symbol File → List File
  | .symbols _ => []
  | .file path _ => [path]

/-- What is known of a dependent file: the first ten reasons, and all the distinct ones. -/
structure Found (Name Kind : Type) where
  distance : Nat
  reasons : List (Reason Name Kind)
  edges : List (Reason Name Kind)

/-- The variables of the walk. -/
structure Run (Symbol File Name Kind κ : Type) where
  cache : κ
  budget : Option Budget
  found : Table File (Found Name Kind)
  visitedSymbols : List Symbol
  visitedFiles : List File
  seedCount : Nat
  pendingCallers : List (Reference File Name Kind)
  nextFiles : List File
  budgetSpent : Bool
  frontierCapped : Bool

section Level

variable {Symbol File Name Kind κ : Type} [DecidableEq Symbol] [DecidableEq File] [DecidableEq Name] [DecidableEq Kind]
  (L : Lookup Symbol File Name Kind κ)

/-- `origin_files` -/
def originFiles (req : ImpactRequest Symbol File) : List File :=
  match req.target with
  | .symbols seeds => seeds.map L.filePath
  | .file path _ => [path]

/-- `req.depth as u32` -/
def depth32 (req : ImpactRequest Symbol File) : Nat := req.depth % 2 ^ 32

def Found.note (depth : Nat) (reason : Reason Name Kind) : Option (Found Name Kind) → Found Name Kind
  | none => ⟨depth, [reason], [reason]⟩
  | some found =>
    if reason ∈ found.edges then { found with distance := min found.distance depth }
    else
      { distance := min found.distance depth
        reasons := if found.reasons.length < 10 then found.reasons ++ [reason] else found.reasons
        edges := found.edges ++ [reason] }

/-- A reference or an import that leads to its file. -/
def follow (req : ImpactRequest Symbol File) (depth : Nat) (pushFile : Bool) (reason : Reason Name Kind)
    (s : Run Symbol File Name Kind κ) (r : Reference File Name Kind) : Run Symbol File Name Kind κ :=
  let s := { s with found := s.found.put r.fromFile (Found.note depth reason) }
  if depth < depth32 req then
    { s with
      nextFiles := if pushFile then s.nextFiles ++ [r.fromFile] else s.nextFiles
      pendingCallers := s.pendingCallers ++ [r] }
  else s

/-- A row of `references`. -/
def followReference (req : ImpactRequest Symbol File) (depth : Nat) (symbol : Symbol)
    (s : Run Symbol File Name Kind κ) (r : Reference File Name Kind) : Run Symbol File Name Kind κ :=
  if r.fromFile ∈ originFiles L req then s
  else follow req depth req.fileForm ⟨L.name symbol, r.kind, r.line⟩ s r

/-- A row of `file_imports` that matches. -/
def followImport (req : ImpactRequest Symbol File) (depth : Nat) (s : Run Symbol File Name Kind κ)
    (r : Reference File Name Kind) : Run Symbol File Name Kind κ :=
  if r.fromFile ∈ originFiles L req then s
  else { follow req depth true ⟨r.toName, r.kind, r.line⟩ s r with seedCount := max s.seedCount 1 }

/-- The pricing of a frontier: the cost and the position of every symbol that is new. -/
def price : List Symbol → Nat → Budget → List Symbol → List (Nat × Nat) × Budget × List Symbol
  | [], _, b, visited => ([], b, visited)
  | symbol :: rest, idx, b, visited =>
    let look := if idx % 256 = 0 then b.overDeadline else (false, b)
    if look.1 then ([], look.2, visited)
    else if symbol ∈ visited then price rest (idx + 1) look.2 visited
    else
      let others := price rest (idx + 1) look.2 (visited ++ [symbol])
      ((L.cost symbol, idx) :: others.1, others.2)

/-- The positions admitted, cheapest first. -/
def admitPriced : List (Nat × Nat) → Budget → List Nat × Budget
  | [], b => ([], b)
  | (cost, idx) :: rest, b =>
    if b.remaining < cost then ([], { b with exhausted := true })
    else
      let others := admitPriced rest (b.charge cost)
      (idx :: others.1, others.2)

/-- The rows of the admitted symbols, in the order of the frontier. -/
def load (admitted : List Nat) : List Symbol → Nat → Budget → κ →
    List (Symbol × List (Reference File Name Kind)) × Budget × κ
  | [], _, b, cache => ([], b, cache)
  | symbol :: rest, idx, b, cache =>
    if idx ∉ admitted then load admitted rest (idx + 1) b cache
    else
      let look := b.overDeadline
      if look.1 then ([], look.2, cache)
      else
        let rows := L.references cache symbol
        let others := load admitted rest (idx + 1) look.2 rows.2
        ((symbol, rows.1) :: others.1, others.2)

/-- The level without a budget: every symbol that is new. -/
def loadAll : List Symbol → List Symbol → κ → List (Symbol × List (Reference File Name Kind)) × List Symbol × κ
  | [], visited, cache => ([], visited, cache)
  | symbol :: rest, visited, cache =>
    if symbol ∈ visited then loadAll rest visited cache
    else
      let rows := L.references cache symbol
      let others := loadAll rest (visited ++ [symbol]) rows.2
      ((symbol, rows.1) :: others.1, others.2)

/-- The order of `sort_unstable` on pairs -/
def pairLe (a b : Nat × Nat) : Bool := a.1 < b.1 || (a.1 = b.1 && a.2 ≤ b.2)

/-- The symbols of a level with their rows. -/
def loadLevel (s : Run Symbol File Name Kind κ) (frontier : List Symbol) :
    List (Symbol × List (Reference File Name Kind)) × Run Symbol File Name Kind κ :=
  match s.budget with
  | some b =>
    let priced := price L frontier 0 b s.visitedSymbols
    let admitted := admitPriced (priced.1.insertionSort fun a b => pairLe a b) priced.2.1
    let level := load L admitted.1 frontier 0 admitted.2 s.cache
    (level.1, { s with
      cache := level.2.2, budget := some level.2.1, visitedSymbols := priced.2.2,
      budgetSpent := level.2.1.exhausted })
  | none =>
    let level := loadAll L frontier s.visitedSymbols s.cache
    (level.1, { s with cache := level.2.2, visitedSymbols := level.2.1 })

def followLevel (req : ImpactRequest Symbol File) (depth : Nat)
    (level : List (Symbol × List (Reference File Name Kind))) (s : Run Symbol File Name Kind κ) :
    Run Symbol File Name Kind κ :=
  level.foldl (fun s row => row.2.foldl (followReference L req depth row.1) s) s

/-- `file_imports` of a walk: none without a file to start from. -/
def walkImports (req : ImpactRequest Symbol File) : List (Reference File Name Kind) :=
  match req.target with
  | .symbols _ => []
  | .file _ _ => L.fileImports

/-- The look at the clock at every 256th row. -/
def lookAt (s : Run Symbol File Name Kind κ) (index : Nat) : Bool × Run Symbol File Name Kind κ :=
  if index % 256 = 0 then
    match s.budget with
    | some b =>
      if b.overDeadline.1 then (true, { s with budget := some b.overDeadline.2, budgetSpent := true })
      else (false, { s with budget := some b.overDeadline.2 })
    | none => (false, s)
  else (false, s)

/-- The rows of `import_matches`, followed. -/
def followCached (req : ImpactRequest Symbol File) (depth : Nat) : List Nat → Nat → Run Symbol File Name Kind κ →
    Option (Run Symbol File Name Kind κ)
  | [], _, s => some s
  | row :: rest, index, s =>
    let look := lookAt s index
    if look.1 then some look.2
    else
      match (walkImports L req)[row]? with
      | none => none
      | some r => followCached req depth rest (index + 1) (followImport L req depth look.2 r)

/-- All the imports, matched and followed: the numbers of those that match too. -/
def followMatching (req : ImpactRequest Symbol File) (depth : Nat) (file : File) : List (Reference File Name Kind) →
    Nat → Run Symbol File Name Kind κ → List Nat × Run Symbol File Name Kind κ
  | [], _, s => ([], s)
  | r :: rest, index, s =>
    let look := lookAt s index
    if look.1 then ([], look.2)
    else
      let matched := L.targetsFile look.2.cache r file
      let s := { look.2 with cache := matched.2 }
      if matched.1 then
        let others := followMatching req depth file rest (index + 1) (followImport L req depth s r)
        (index :: others.1, others.2)
      else followMatching req depth file rest (index + 1) s

/-- A file of the frontier that is new. -/
def followFile (req : ImpactRequest Symbol File) (depth : Nat) (file : File) (s : Run Symbol File Name Kind κ) :
    Option (Run Symbol File Name Kind κ) :=
  match L.cachedMatches s.cache file with
  | some rows => followCached L req depth rows 0 s
  | none =>
    let matched := followMatching L req depth file (walkImports L req) 0 s
    if matched.2.budgetSpent then some matched.2
    else some { matched.2 with cache := L.rememberImports matched.2.cache file matched.1 }

/-- The budget admits one file: its imports are paid for. -/
def admitFile (req : ImpactRequest Symbol File) (s : Run Symbol File Name Kind κ) :
    Bool × Run Symbol File Name Kind κ :=
  match s.budget with
  | none => (true, s)
  | some b =>
    let spend := fun b : Budget => { s with budget := some { b with exhausted := true }, budgetSpent := true }
    if b.exhausted then (false, spend b)
    else
      let look := b.overDeadline
      if look.1 then (false, spend look.2)
      else if look.2.remaining < (walkImports L req).length then (false, spend look.2)
      else (true, { s with budget := some (look.2.charge (walkImports L req).length) })

def followFiles (req : ImpactRequest Symbol File) (depth : Nat) : List File → Run Symbol File Name Kind κ →
    Option (Run Symbol File Name Kind κ)
  | [], s => some s
  | file :: rest, s =>
    if file ∈ s.visitedFiles then followFiles req depth rest s
    else
      let admitted := admitFile L req { s with visitedFiles := s.visitedFiles ++ [file] }
      if !admitted.1 then some admitted.2
      else (followFile L req depth file admitted.2).bind (followFiles req depth rest)

end Level

section Walk

variable {Symbol File Name Kind κ : Type} [DecidableEq Symbol] [LinearOrder File] [DecidableEq Name] [DecidableEq Kind]
  (L : Lookup Symbol File Name Kind κ)

/-- The callers of a level, each once. -/
def nextFrontier (pending : List (Reference File Name Kind)) : List Symbol :=
  (pending.filterMap L.owner).reverse.dedup.reverse

/-- The files of a level that are new. -/
def nextFileFrontier (s : Run Symbol File Name Kind κ) : List File :=
  ((s.nextFiles.dedup).insertionSort (· ≤ ·)).filter fun file => file ∉ s.visitedFiles

/-- The next frontiers, cut at the cap. -/
def cutFrontiers (maxFrontier : Nat) (s : Run Symbol File Name Kind κ) :
    Run Symbol File Name Kind κ × List Symbol × List File :=
  let symbols := nextFrontier L s.pendingCallers
  let files := nextFileFrontier s
  ({ s with frontierCapped := s.frontierCapped || decide (maxFrontier < symbols.length) ||
      decide (maxFrontier < files.length) },
    symbols.take maxFrontier, files.take maxFrontier)

/-- The end of a level: the frontiers of the next one, unless the walk is over. -/
def endLevel (maxFrontier : Nat) (s : Run Symbol File Name Kind κ) :
    Run Symbol File Name Kind κ × Option (List Symbol × List File) :=
  if s.budgetSpent then ({ s with frontierCapped := true }, none)
  else if s.pendingCallers.isEmpty && s.nextFiles.isEmpty then (s, none)
  else
    let look := match s.budget with
      | some b => b.overDeadline.1
      | none => false
    let s := { s with budget := s.budget.map fun b => b.overDeadline.2 }
    if look then ({ s with frontierCapped := true }, none)
    else
      let cut := cutFrontiers L maxFrontier s
      if cut.2.1.isEmpty && cut.2.2.isEmpty then (cut.1, none) else (cut.1, some cut.2)

/-- One level of the walk. -/
def walkLevel (req : ImpactRequest Symbol File) (maxFrontier depth : Nat) (s : Run Symbol File Name Kind κ)
    (frontier : List Symbol) (files : List File) :
    Option (Run Symbol File Name Kind κ × Option (List Symbol × List File)) :=
  let s := { s with nextFiles := [], pendingCallers := [], budgetSpent := false }
  let level := loadLevel L s frontier
  (followFiles L req depth files (followLevel L req depth level.1 level.2)).map (endLevel L maxFrontier)

/-- `for depth in 1..=req.depth as u32`, with the number of levels left. -/
def walkLevels (req : ImpactRequest Symbol File) (maxFrontier : Nat) : Nat → Nat → Run Symbol File Name Kind κ →
    List Symbol → List File → Option (Run Symbol File Name Kind κ)
  | 0, _, s, _, _ => some s
  | left + 1, depth, s, frontier, files =>
    match walkLevel L req maxFrontier depth s frontier files with
    | none => none
    | some (s, none) => some s
    | some (s, some (frontier, files)) => walkLevels req maxFrontier left (depth + 1) s frontier files

/-- `ImpactEntry`, without what is read off the path. -/
structure Entry (File Name Kind : Type) where
  filePath : File
  distance : Nat
  reasons : List (Reason Name Kind)

structure Outcome (File Name Kind : Type) where
  entries : List (Entry File Name Kind)
  capped : Bool
  edgeCounts : Table File Nat
  seedCount : Nat

/-- The order of the entries. -/
def entryLe (a b : Entry File Name Kind) : Bool :=
  a.distance < b.distance || (a.distance = b.distance &&
    (b.reasons.length < a.reasons.length || (a.reasons.length = b.reasons.length && a.filePath ≤ b.filePath)))

def outcomeOf (req : ImpactRequest Symbol File) (isSource : File → Bool) (s : Run Symbol File Name Kind κ) :
    Outcome File Name Kind where
  entries := ((s.found.rows.map fun row => (⟨row.1, row.2.distance, row.2.reasons⟩ : Entry File Name Kind)).filter
    fun entry => !req.sourceOnly || isSource entry.filePath).insertionSort fun a b => entryLe a b
  capped := s.frontierCapped || L.contextCapped s.cache
  edgeCounts := Table.collect (s.found.rows.map fun row => (row.1, row.2.edges.length % 2 ^ 32))
  seedCount := s.seedCount

/-- The start of a walk. -/
def start (req : ImpactRequest Symbol File) (budget : Option Budget) (cache : κ) : Run Symbol File Name Kind κ where
  cache := cache
  budget := budget
  found := ∅
  visitedSymbols := []
  visitedFiles := []
  seedCount := req.target.seeds.length
  pendingCallers := []
  nextFiles := []
  budgetSpent := false
  frontierCapped := false

/-- The walk from the resolved target. -/
def walkFrom (req : ImpactRequest Symbol File) (maxFrontier : Nat) (isSource : File → Bool) (budget : Option Budget)
    (cache : κ) : Option (Outcome File Name Kind × κ) :=
  if req.target.seeds.isEmpty && req.target.files.isEmpty then some (⟨[], false, ∅, 0⟩, cache)
  else
    (walkLevels L req maxFrontier (depth32 req) 1 (start req budget cache) req.target.seeds req.target.files).map
      fun s => (outcomeOf L req isSource s, s.cache)

/-- `impact_analysis_walk_shared`: the outcome, with the cache it leaves. -/
def impactAnalysisWalkShared (req : ImpactRequest Symbol File) (maxFrontier : Nat) (isSource : File → Bool)
    (budget : Option Budget) (cache : κ) : Option (Outcome File Name Kind × κ) :=
  match budget with
  | none => walkFrom L req maxFrontier isSource none cache
  | some b =>
    if b.exhausted then some (⟨[], true, ∅, 0⟩, cache)
    else if b.overDeadline.1 then some (⟨[], true, ∅, 0⟩, cache)
    else walkFrom L req maxFrontier isSource (some b.overDeadline.2) cache

end Walk

end Impact
end Graph
end CodeSage
