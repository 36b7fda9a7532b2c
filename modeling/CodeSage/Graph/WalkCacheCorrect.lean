import CodeSage.Graph.WalkCache
import CodeSage.Graph.ImpactCorrect

/-!
# CodeSage.Graph.WalkCacheCorrect

A cache that walks share gives each walk what the database would (`Holds`), but for the rows of `import_matches`: these
are kept under the file alone, although they are those of the imports and the module context of the walk that stored
them. A sequence of walks answers as each of them alone when the walks that go through a file agree on its rows
(`Compatible`).
-/

namespace CodeSage
namespace Graph
namespace Impact

open Lib

section Pure

variable {Symbol File Name Kind Site Modules : Type} [DecidableEq Symbol] [DecidableEq File]
  (db : Database Symbol File Name Kind Site Modules)

def Database.definitionsOf (file : File) (spelling : Name) : List Symbol :=
  let modules := if db.isRustPath file then db.rustModules else db.noModules
  db.resolveCalleeDefinitions file spelling
    (if db.asksImports file spelling modules then db.importRefsForFile file else []) modules

def Database.resolvesTo (symbol : Symbol) (r : Reference File Name Kind) : Bool :=
  match db.pythonBinding r with
  | some resolved => symbol ∈ resolved
  | none => !db.isPackageImport r && decide (symbol ∈ db.definitionsOf r.fromFile r.toName)

def Database.referencesTo (symbol : Symbol) : List (Reference File Name Kind) :=
  (db.findReferences (db.name symbol)).filter (db.resolvesTo symbol)

/-- What a walk in this module context goes by. -/
def Database.evidence (modules : Modules) : Evidence Symbol File Name Kind where
  name := db.name
  filePath := db.filePath
  cost := fun _ => 0
  references := db.referencesTo
  fileImports := db.fileImportReferences
  targetsFile := fun r file =>
    if db.isPythonPath r.fromFile then db.isImport r.kind && decide (file ∈ db.pythonImportTargets (db.site r))
    else db.importRefTargetsFile r.toName r.fromFile file modules
  owner := db.owner
  contextCapped := fun _ => false

end Pure

namespace WalkCache

variable {Symbol File Name Kind Site Modules : Type} [DecidableEq Symbol] [DecidableEq File] [DecidableEq Name]
  [DecidableEq Site] (db : Database Symbol File Name Kind Site Modules)

/-- What the cache has of anything but the matching imports is what the database gives. -/
structure Holds (cache : WalkCache Symbol File Name Kind Site Modules) : Prop where
  references : Table.Memo db.referencesTo cache.references
  resolutions : Table.Memo (fun key => db.definitionsOf key.1 key.2) cache.resolutions
  callerImports : Table.Memo db.importRefsForFile cache.callerImports
  pythonImports : Table.Memo db.pythonImportTargets cache.pythonImports
  rustModules : ∀ modules, cache.rustModules = some modules → modules = db.rustModules

/-- A lookup keeps the cache right, and the matching imports as they are. -/
structure Keeps (cache cache' : WalkCache Symbol File Name Kind Site Modules) : Prop where
  holds : Holds db cache'
  importMatches : cache'.importMatches = cache.importMatches

variable {db} {cache cache' cache'' : WalkCache Symbol File Name Kind Site Modules}

theorem Holds.keeps (h : Holds db cache) : Keeps db cache cache := ⟨h, rfl⟩

theorem Keeps.trans (h : Keeps db cache cache') (h' : Keeps db cache' cache'') : Keeps db cache cache'' :=
  ⟨h'.holds, h'.importMatches.trans h.importMatches⟩

theorem Holds.empty : Holds db WalkCache.empty :=
  ⟨Table.memo_empty, Table.memo_empty, Table.memo_empty, Table.memo_empty, nofun⟩

theorem loadModules_keeps (h : Holds db cache) :
    (loadModules db cache).1 = db.rustModules ∧ Keeps db cache (loadModules db cache).2 := by
  unfold loadModules
  split
  · rename_i modules hmodules
    exact ⟨h.rustModules modules hmodules, h.keeps⟩
  · refine ⟨rfl, ⟨h.references, h.resolutions, h.callerImports, h.pythonImports, fun modules hmodules => ?_⟩, rfl⟩
    cases hmodules
    rfl

theorem importsOf_keeps (h : Holds db cache) (file : File) :
    (importsOf db cache file).1 = db.importRefsForFile file ∧ Keeps db cache (importsOf db cache file).2 := by
  unfold importsOf
  split
  · rename_i imports himports
    exact ⟨h.callerImports file imports himports, h.keeps⟩
  dsimp only
  split
  · exact ⟨rfl, ⟨h.references, h.resolutions, h.callerImports.insert file, h.pythonImports, h.rustModules⟩, rfl⟩
  · exact ⟨rfl, h.keeps⟩

theorem resolveSymbols_keeps (h : Holds db cache) (file : File) (spelling : Name) :
    (resolveSymbols db cache file spelling).1 = db.definitionsOf file spelling ∧
      Keeps db cache (resolveSymbols db cache file spelling).2 := by
  have hmodules : (if db.isRustPath file then loadModules db cache else (db.noModules, cache)).1 =
      (if db.isRustPath file then db.rustModules else db.noModules) ∧
      Keeps db cache (if db.isRustPath file then loadModules db cache else (db.noModules, cache)).2 := by
    split
    · exact loadModules_keeps h
    · exact ⟨rfl, h.keeps⟩
  rw [resolveSymbols, Database.definitionsOf]
  generalize (if db.isRustPath file then loadModules db cache else (db.noModules, cache)) = modules at hmodules
  obtain ⟨hvalue, hkept⟩ := hmodules
  rw [← hvalue]
  dsimp only
  split
  · obtain ⟨himports, hkept'⟩ := importsOf_keeps hkept.holds file
    exact ⟨by rw [himports], hkept.trans hkept'⟩
  · exact ⟨rfl, hkept⟩

theorem resolve_keeps (h : Holds db cache) (file : File) (spelling : Name) :
    (resolve db cache file spelling).1 = db.definitionsOf file spelling ∧
      Keeps db cache (resolve db cache file spelling).2 := by
  unfold resolve
  split
  · rename_i rows hrows
    exact ⟨h.resolutions (file, spelling) rows hrows, h.keeps⟩
  obtain ⟨hvalue, hkept⟩ := resolveSymbols_keeps h file spelling
  dsimp only
  split
  · refine ⟨hvalue, ⟨hkept.holds.references, ?_, hkept.holds.callerImports, hkept.holds.pythonImports,
      hkept.holds.rustModules⟩, hkept.importMatches⟩
    rw [hvalue]
    exact hkept.holds.resolutions.insert (file, spelling)
  · exact ⟨hvalue, hkept⟩

theorem resolveReferences_keeps {symbol : Symbol} {rows : List (Reference File Name Kind)} :
    ∀ {seen : Table (File × Name) (List Symbol)} {cache : WalkCache Symbol File Name Kind Site Modules}, Holds db cache →
      Table.Memo (fun key => db.definitionsOf key.1 key.2) seen →
      (resolveReferencesToSymbol db symbol rows seen cache).1 = rows.filter (db.resolvesTo symbol) ∧
        Keeps db cache (resolveReferencesToSymbol db symbol rows seen cache).2 := by
  induction rows with
  | nil => exact fun h _ => ⟨rfl, h.keeps⟩
  | cons r rest ih =>
    intro seen cache h hseen
    rw [resolveReferencesToSymbol, List.filter_cons, Database.resolvesTo]
    cases hbinding : db.pythonBinding r with
    | some resolved =>
      obtain ⟨hrest, hkept⟩ := ih h hseen
      dsimp only
      rw [hrest]
      exact ⟨by simp only [decide_eq_true_eq], hkept⟩
    | none =>
      dsimp only
      cases hpackage : db.isPackageImport r with
      | true =>
        obtain ⟨hrest, hkept⟩ := ih h hseen
        rw [if_pos rfl, hrest, Bool.not_true, Bool.false_and, if_neg Bool.false_ne_true]
        exact ⟨rfl, hkept⟩
      | false =>
        rw [if_neg Bool.false_ne_true, Bool.not_false, Bool.true_and]
        cases hknown : seen.lookup (r.fromFile, r.toName) with
        | some known =>
          obtain rfl := hseen _ known hknown
          obtain ⟨hrest, hkept⟩ := ih h hseen
          dsimp only
          rw [hrest]
          exact ⟨by simp only [decide_eq_true_eq], hkept⟩
        | none =>
          obtain ⟨hvalue, hresolved⟩ := resolve_keeps h r.fromFile r.toName
          have hseen' := hseen.insert (r.fromFile, r.toName)
          dsimp only
          rw [hvalue]
          obtain ⟨hrest, hkept⟩ := ih hresolved.holds hseen'
          rw [hrest]
          exact ⟨by simp only [decide_eq_true_eq], hresolved.trans hkept⟩

theorem referencesOf_keeps (h : Holds db cache) (symbol : Symbol) :
    (referencesOf db cache symbol).1 = db.referencesTo symbol ∧ Keeps db cache (referencesOf db cache symbol).2 := by
  unfold referencesOf
  split
  · rename_i rows hrows
    exact ⟨h.references symbol rows hrows, h.keeps⟩
  obtain ⟨hvalue, hkept⟩ : (resolveReferencesToSymbol db symbol (db.findReferences (db.name symbol)) ∅ cache).1 = _ ∧ _ :=
    resolveReferences_keeps h Table.memo_empty
  dsimp only
  split
  · refine ⟨hvalue, ⟨?_, hkept.holds.resolutions, hkept.holds.callerImports, hkept.holds.pythonImports,
      hkept.holds.rustModules⟩, hkept.importMatches⟩
    rw [hvalue]
    exact hkept.holds.references.insert symbol
  · exact ⟨hvalue, hkept⟩

theorem pythonTargets_keeps (h : Holds db cache) (r : Reference File Name Kind) :
    (∀ file, file ∈ (pythonTargets db cache r).1 ↔
      db.isImport r.kind = true ∧ file ∈ db.pythonImportTargets (db.site r)) ∧
      Keeps db cache (pythonTargets db cache r).2 := by
  unfold pythonTargets
  cases himport : db.isImport r.kind with
  | false => exact ⟨fun file => ⟨fun hmem => (nomatch hmem), fun hmem => (nomatch hmem.1)⟩, h.keeps⟩
  | true =>
    rw [Bool.not_true, if_neg Bool.false_ne_true]
    split
    · rename_i targets htargets
      obtain rfl := h.pythonImports _ targets htargets
      exact ⟨fun file => (and_iff_right rfl).symm, h.keeps⟩
    dsimp only
    have hindexed : Keeps db cache (if (!cache.pythonIndexed &&
        decide (db.indexedBytes ≤ MAX_REFERENCE_BYTES - cache.referenceBytes)) = true then
          { cache with referenceBytes := cache.referenceBytes + db.indexedBytes, pythonIndexed := true }
        else cache) := by
      split
      · exact ⟨⟨h.references, h.resolutions, h.callerImports, h.pythonImports, h.rustModules⟩, rfl⟩
      · exact h.keeps
    generalize (if (!cache.pythonIndexed &&
        decide (db.indexedBytes ≤ MAX_REFERENCE_BYTES - cache.referenceBytes)) = true then
          { cache with referenceBytes := cache.referenceBytes + db.indexedBytes, pythonIndexed := true }
        else cache) = indexed at hindexed ⊢
    split
    · exact ⟨fun file => (and_iff_right rfl).symm, ⟨hindexed.holds.references, hindexed.holds.resolutions,
        hindexed.holds.callerImports, hindexed.holds.pythonImports.insert _, hindexed.holds.rustModules⟩,
        hindexed.importMatches⟩
    · exact ⟨fun file => (and_iff_right rfl).symm, hindexed⟩

end WalkCache

section Walks

variable {Symbol File Name Kind Site Modules : Type} [DecidableEq Symbol] [LinearOrder File] [DecidableEq Name]
  [DecidableEq Site] (db : Database Symbol File Name Kind Site Modules)

/-- What a call goes by. -/
def Call.evidence (call : Call Symbol File) : Evidence Symbol File Name Kind :=
  db.evidence (rustModulesFor db call.request)

/-- The call goes through this file, unless a frontier is cut. -/
def Call.Reaches (call : Call Symbol File) (file : File) : Prop :=
  ∃ k < depth32 call.request, AtStep (call.evidence db) call.request call.request.fileForm k (.file file)

/-- The rows of the call's imports that match a file. -/
def Call.matches (call : Call Symbol File) (file : File) : List Nat :=
  matchRows (call.evidence db) file (walkImports (call.evidence db).lookup call.request) 0

/-- Calls that go through one file have the same rows for it. -/
def Agreeing (call call' : Call Symbol File) : Prop :=
  ∀ file, call.Reaches db file → call'.Reaches db file → call.matches db file = call'.matches db file

def Compatible (calls : List (Call Symbol File)) : Prop := calls.Pairwise (Agreeing db)

/-- The same entries, with their distances and reasons, and the same edge counts. -/
structure SameAnswer (o o' : Outcome File Name Kind) : Prop where
  entries : o.entries = o'.entries
  edgeCounts : o.edgeCounts = o'.edgeCounts
  seedCount : o.seedCount = o'.seedCount

/-- The cache after these calls: the rows of a file are those of one of them that went through it. -/
structure After (done : List (Call Symbol File)) (cache : WalkCache Symbol File Name Kind Site Modules) : Prop where
  holds : cache.Holds db
  matching : ∀ file rows, cache.importMatches.lookup file = some rows →
    ∃ call ∈ done, call.Reaches db file ∧ rows = call.matches db file

variable {db} {call : Call Symbol File} {done : List (Call Symbol File)}
  {cache cache' : WalkCache Symbol File Name Kind Site Modules}

theorem After.keeps (h : After db done cache) (hkept : WalkCache.Keeps db cache cache') : After db done cache' :=
  ⟨hkept.holds, fun file rows hrows => h.matching file rows (hkept.importMatches ▸ hrows)⟩

theorem After.remember (h : After db done cache) (hcall : call ∈ done) {file : File} (hfile : call.Reaches db file) :
    After db done (WalkCache.rememberImports db cache file (call.matches db file)) := by
  unfold WalkCache.rememberImports
  dsimp only
  split
  · refine ⟨⟨h.holds.references, h.holds.resolutions, h.holds.callerImports, h.holds.pythonImports, h.holds.rustModules⟩,
      fun file' rows hrows => ?_⟩
    rw [lookup_insert] at hrows
    split at hrows
    · rename_i heq
      cases hrows
      subst heq
      exact ⟨call, hcall, hfile, rfl⟩
    · exact h.matching file' rows hrows
  · exact h

/-- Over a cache left by calls that it agrees with, a call looks up what it would without. -/
theorem lookup_coherent_after (hcall : call ∈ done) (hagree : ∀ c ∈ done, Agreeing db c call) :
    Coherent (WalkCache.lookup db (rustModulesFor db call.request)) (call.evidence db) call.request (call.Reaches db)
      fun cache _ => After db done cache where
  name := rfl
  filePath := rfl
  fileImports := rfl
  owner := rfl
  references := fun cache _ x h => by
    obtain ⟨hvalue, hkept⟩ := WalkCache.referencesOf_keeps h.holds x
    exact ⟨hvalue, h.keeps hkept⟩
  targetsFile := fun cache _ r file h => by
    have hlookup : (WalkCache.lookup db (rustModulesFor db call.request)).targetsFile cache r file =
        if db.isPythonPath r.fromFile then
          (decide (file ∈ (WalkCache.pythonTargets db cache r).1), (WalkCache.pythonTargets db cache r).2)
        else (db.importRefTargetsFile r.toName r.fromFile file (rustModulesFor db call.request), cache) := rfl
    have hpure : (call.evidence db).targetsFile r file =
        if db.isPythonPath r.fromFile then db.isImport r.kind && decide (file ∈ db.pythonImportTargets (db.site r))
        else db.importRefTargetsFile r.toName r.fromFile file (rustModulesFor db call.request) := rfl
    rw [hlookup, hpure]
    split
    · obtain ⟨hvalue, hkept⟩ := WalkCache.pythonTargets_keeps h.holds r
      refine ⟨?_, h.keeps hkept⟩
      rw [Bool.eq_iff_iff, decide_eq_true_eq, Bool.and_eq_true, decide_eq_true_eq]
      exact hvalue file
    · exact ⟨rfl, h⟩
  cached := fun cache _ file rows hfile h hrows => by
    obtain ⟨c, hc, hreaches, rfl⟩ := h.matching file rows hrows
    exact hagree c hc file hreaches hfile
  remembered := fun cache _ file hfile h => h.remember hcall hfile

variable [DecidableEq Kind]

/-- A call over a cache left by calls that it agrees with. -/
theorem Call.walk_after (call : Call Symbol File) (h : After db done cache) (hcall : call ∈ done) (hagree : ∀ c ∈ done, Agreeing db c call) :
    ∃ o cache', call.walk db cache = some (o, cache') ∧ After db done cache' ∧
      ∃ o' capped, impactAnalysisWalkShared (call.evidence db).lookup call.request call.maxFrontier call.isSource none
        false = some (o', capped) ∧ SameAnswer o o' := by
  have hloaded : After db done (if rustRoot db call.request then (WalkCache.loadModules db cache).2 else cache) := by
    split
    · exact h.keeps (WalkCache.loadModules_keeps h.holds).2
    · exact h
  rw [Call.walk]
  generalize (if rustRoot db call.request then (WalkCache.loadModules db cache).2 else cache) = start at hloaded
  by_cases hempty : (call.request.target.seeds.isEmpty && call.request.target.files.isEmpty) = true
  · have hshared : impactAnalysisWalkShared (WalkCache.lookup db (rustModulesFor db call.request)) call.request
        call.maxFrontier call.isSource none start = some (⟨[], false, ∅, 0⟩, start) := by
      rw [impactAnalysisWalkShared, walkFrom, if_pos hempty]
    have hpure : impactAnalysisWalkShared (call.evidence db).lookup call.request call.maxFrontier call.isSource none
        false = some (⟨[], false, ∅, 0⟩, false) := by
      rw [impactAnalysisWalkShared, walkFrom, if_pos hempty]
    exact ⟨_, start, hshared, hloaded, _, false, hpure, rfl, rfl, rfl⟩
  · have hfine : Fine (fun cache _ => After db done cache) True
        (Impact.start call.request none start : Run Symbol File Name Kind _) false := ⟨hloaded, fun _ => rfl, rfl, by rintro _ ⟨⟩⟩
    have hstarts : LevelInv (call.evidence db) call.request false 0 (Impact.start call.request none false)
        call.request.target.seeds call.request.target.files fun _ _ _ => False := start_levelInv
    rcases walkLevels_agree (lookup_coherent_after hcall hagree) (fun k hk file hfile => ⟨k, hk, hfile⟩) hstarts
      (Nat.zero_add _) hfine with ⟨s', b', hs', ht', hok⟩ | ⟨hnot, -⟩
    · have hpure : walkLevels (call.evidence db).lookup call.request call.maxFrontier (depth32 call.request) 1
          (Impact.start call.request none false) call.request.target.seeds call.request.target.files =
          some (s'.bare b') := ht'
      refine ⟨outcomeOf (WalkCache.lookup db (rustModulesFor db call.request)) call.request call.isSource s', s'.cache, ?_,
        hok.cache, outcomeOf (call.evidence db).lookup call.request call.isSource (s'.bare b'), b', ?_, rfl, rfl, rfl⟩
      · rw [impactAnalysisWalkShared, walkFrom, if_neg hempty, hs', Option.map_some]
      · rw [impactAnalysisWalkShared, walkFrom, if_neg hempty, hpure, Option.map_some]
        rfl
    · exact absurd trivial hnot

/-- A call alone answers as the walk over the fixed lookups. -/
theorem Call.alone_answer (call : Call Symbol File) : ∃ o, call.alone db = some o ∧ ∃ o' capped, impactAnalysisWalkShared (call.evidence db).lookup
    call.request call.maxFrontier call.isSource none false = some (o', capped) ∧ SameAnswer o o' := by
  have hafter : After db [call] WalkCache.empty := ⟨.empty, nofun⟩
  obtain ⟨o, cache', hwalk, -, hpure⟩ := call.walk_after hafter (List.mem_singleton.mpr rfl) fun c hc => by
    rw [List.mem_singleton.mp hc]
    exact fun _ _ _ => rfl
  exact ⟨o, by rw [Call.alone, hwalk, Option.map_some], hpure⟩

theorem sharedWalks_after {calls : List (Call Symbol File)} : ∀ {done : List (Call Symbol File)}
    {cache : WalkCache Symbol File Name Kind Site Modules}, After db done cache →
    (∀ c ∈ done, ∀ c' ∈ calls, Agreeing db c c') → Compatible db calls →
    ∃ os, sharedWalks db calls cache = some os ∧
      List.Forall₂ (fun call o => ∃ o', call.alone db = some o' ∧ SameAnswer o o') calls os := by
  induction calls with
  | nil => exact fun _ _ _ => ⟨[], rfl, .nil⟩
  | cons call calls ih =>
    intro done cache hafter hdone hcalls
    obtain ⟨hcall, hrest⟩ := List.pairwise_cons.mp hcalls
    have hmore : After db (done ++ [call]) cache := ⟨hafter.holds, fun file rows hrows =>
      (hafter.matching file rows hrows).imp fun c hc => ⟨List.mem_append_left _ hc.1, hc.2⟩⟩
    have hagree : ∀ c ∈ done ++ [call], Agreeing db c call := by
      intro c hc
      rcases List.mem_append.mp hc with hc | hc
      · exact hdone c hc call (List.mem_cons_self ..)
      · rw [List.mem_singleton.mp hc]
        exact fun _ _ _ => rfl
    obtain ⟨o, cache', hwalk, hafter', o', capped, hpure, hsame⟩ :=
      call.walk_after hmore (List.mem_append_right _ (List.mem_singleton.mpr rfl)) hagree
    obtain ⟨a, halone, a', capped', hpure', hsame'⟩ : ∃ a, call.alone db = some a ∧ ∃ a' capped', _ ∧ SameAnswer a a' :=
      call.alone_answer
    have hsuffix : ∀ c ∈ done ++ [call], ∀ c' ∈ calls, Agreeing db c c' := by
      intro c hc c' hc'
      rcases List.mem_append.mp hc with hc | hc
      · exact hdone c hc c' (List.mem_cons_of_mem _ hc')
      · rw [List.mem_singleton.mp hc]
        exact hcall c' hc'
    obtain ⟨os, hos, hall⟩ := ih hafter' hsuffix hrest
    cases hpure.symm.trans hpure'
    have hanswer : SameAnswer o a := ⟨hsame.entries.trans hsame'.entries.symm,
      hsame.edgeCounts.trans hsame'.edgeCounts.symm, hsame.seedCount.trans hsame'.seedCount.symm⟩
    refine ⟨o :: os, ?_, .cons ⟨a, halone, hanswer⟩ hall⟩
    rw [sharedWalks, hwalk]
    dsimp only
    rw [hos, Option.map_some]

/-- Sharing a cache does not change the answers of calls that agree on the files that they go through. -/
theorem sharing_keeps_answers {calls : List (Call Symbol File)} (h : Compatible db calls) :
    ∃ os, sharedWalks db calls WalkCache.empty = some os ∧
      List.Forall₂ (fun call o => ∃ o', call.alone db = some o' ∧ SameAnswer o o') calls os :=
  have hafter : After db [] WalkCache.empty := ⟨.empty, nofun⟩
  sharedWalks_after hafter (fun _ hc => (nomatch hc)) h

end Walks

section PathLine

/-- `b.py` calls `f` of `a.py`, and `c.py` imports `b.py`. -/
def threeFiles : Database String String String String String Unit where
  name := id
  filePath := fun symbol => if symbol = "f" then "a.py" else "b.py"
  owner := fun r => r.fromSymbol
  findReferences := fun name => if name = "f" then [⟨"b.py", some "g", "f", "call", 2⟩] else []
  pythonBinding := fun r => some [r.toName]
  isPackageImport := fun _ => false
  importRefsForFile := fun _ => []
  asksImports := fun _ _ _ => false
  resolveCalleeDefinitions := fun _ _ _ _ => []
  fileImportReferences := [⟨"c.py", none, "b", "import", 1⟩]
  isImport := fun kind => kind = "import"
  site := fun r => r.toName
  pythonImportTargets := fun site => if site = "b" then ["b.py"] else []
  isPythonPath := fun _ => true
  isRustPath := fun _ => false
  importRefTargetsFile := fun _ _ _ _ => false
  rustModules := ()
  noModules := ()
  cappedModules := fun _ => false
  referenceBytes := fun _ rows => rows.length
  resolutionBytes := fun _ rows => rows.length
  callerImportBytes := fun _ imports => imports.length
  indexedBytes := 3
  pythonImportBytes := fun _ targets => targets.length
  importMatchBytes := fun _ rows => rows.length

/-- `a.py:1`, a target given as a file that names the definition of `f` -/
def pathLineCall : Call String String := ⟨⟨.symbols ["f"], true, 2, false⟩, 512, fun _ => true⟩

def fileCall : Call String String := ⟨⟨.file "b.py" ["g"], true, 2, false⟩, 512, fun _ => true⟩

/-- After the walk from `a.py:1` the one from `b.py` misses `c.py`; the other way round the walk panics. -/
theorem path_line_hides_importers :
    (fileCall.alone threeFiles).map (fun o => o.entries.map (·.filePath)) = some ["c.py"] ∧
    (sharedWalks threeFiles [pathLineCall, fileCall] WalkCache.empty).map
      (fun os => os.map fun o => o.entries.map (·.filePath)) = some [["b.py"], []] ∧
    (pathLineCall.alone threeFiles).isSome = true ∧
    (sharedWalks threeFiles [fileCall, pathLineCall] WalkCache.empty).isNone = true := by
  decide

theorem sharing_keeps_answers_files : ∃ os,
    sharedWalks threeFiles [fileCall, ⟨⟨.file "a.py" ["f"], true, 2, false⟩, 512, fun _ => true⟩] WalkCache.empty =
      some os ∧
    List.Forall₂ (fun call o => ∃ o', call.alone threeFiles = some o' ∧ SameAnswer o o')
      [fileCall, ⟨⟨.file "a.py" ["f"], true, 2, false⟩, 512, fun _ => true⟩] os :=
  sharing_keeps_answers (.cons (fun c hc => by
    rw [List.mem_singleton.mp hc]
    exact fun _ _ _ => rfl) (List.pairwise_singleton _ _))

end PathLine

end Impact
end Graph
end CodeSage
