import Mathlib.Data.Finset.Card
import CodeSage.Graph.StructuralIndexRuns

/-!
# CodeSage.Graph.StructuralHistory

Histories of structural passes from an empty index, each cut off anywhere. A pass that leaves the Java files
alone keeps `JavaOk` by keeping their rows; one that does not must come to its end (`Completes`).
-/

namespace CodeSage
namespace Graph

open Lib Lib.Prog
open CodeSage.Parser (Language FileInfo isCppEvidence endsWith)

section Safety

variable {ρ β φ ν : Type} {x : Extraction ρ β} {reads : Reads}

theorem writeParsedBatch_safe (n : Nat) (parsed : List (ParsedFile ρ β)) :
    Safe (writeParsedBatch reads n parsed : Pass ρ β φ ν (List String)) := by
  rw [writeParsedBatch]
  split
  · exact Safe.pure
  split
  · refine Safe.fold (fun failed p => ?_) parsed []
    rw [writeEach]
    split
    · exact Safe.pure
    · exact Safe.bind Safe.commit fun _ => Safe.pure
  · exact Safe.bind Safe.commit fun _ => Safe.pure

theorem indexBatches_safe (java : Finset (String × String)) (toParse : List FileInfo) :
    Safe (indexBatches x reads java toParse : Pass ρ β φ ν (List String)) := by
  refine Safe.bind (Safe.fold (fun acc batch => ?_) _ _) fun _ => Safe.pure
  exact Safe.bind (writeParsedBatch_safe _ _) fun _ => Safe.pure

theorem chooseJavaContext_safe (javaPaths : List String) (unavailable : Bool) (toParse : List FileInfo) :
    Safe (chooseJavaContext reads javaPaths unavailable toParse : Pass ρ β φ ν _) := by
  rw [chooseJavaContext]
  split
  · split
    · exact Safe.bind Safe.commit fun _ => Safe.pure
    · exact Safe.pure
  · exact Safe.pure

theorem indexDiscoveryReport_safe (report : DiscoveryReport) (strategy : IndexStrategy) :
    Safe (indexDiscoveryReport x reads report strategy : Pass ρ β φ ν (List String)) := by
  refine Safe.bind Safe.state fun s => Safe.bind (Safe.whenever Safe.commit) fun _ => ?_
  refine Safe.bind Safe.state fun before => Safe.bind (Safe.whenever Safe.commit) fun _ => ?_
  refine Safe.bind (chooseJavaContext_safe _ _ _) fun context => Safe.bind (indexBatches_safe _ _) fun failed => ?_
  refine Safe.bind (Safe.whenever Safe.commit) fun _ => ?_
  exact Safe.bind (Safe.whenever Safe.commit) fun _ => Safe.pure

theorem refreshJavaBoundaries_safe : Safe (refreshJavaBoundaries x reads : Pass ρ β φ ν Bool) := by
  rw [refreshJavaBoundaries]
  split <;> exact Safe.bind Safe.commit fun _ => Safe.pure

theorem indexFiles_safe (files : List FileInfo) :
    Safe (indexFiles x reads files : Pass ρ β φ ν (Option (List String))) := by
  rw [indexFiles]
  split
  · exact Safe.pure
  refine Safe.bind Safe.state fun s => Safe.bind (Safe.whenever Safe.commit) fun _ => ?_
  dsimp only [indexFilesInContext]
  split
  · exact Safe.bind Safe.commit fun _ => Safe.bind (indexBatches_safe _ _) fun _ => Safe.pure
  · refine Safe.bind (indexBatches_safe _ _) fun failed => ?_
    split
    · exact Safe.pure
    · exact Safe.bind refreshJavaBoundaries_safe fun _ => Safe.pure

theorem removeFilesWithSource_safe (paths : List String) :
    Safe (removeFilesWithSource x reads paths : Pass ρ β φ ν Bool) := by
  refine Safe.bind Safe.state fun s => Safe.bind ?_ fun _ => ?_
  · exact Safe.bind (Safe.whenever Safe.commit) fun _ => Safe.commit
  · split
    · exact refreshJavaBoundaries_safe
    · exact Safe.pure

end Safety

/-- A structural pass -/
inductive StructuralOp where
  | index (report : DiscoveryReport) (strategy : IndexStrategy)
  | indexFiles (files : List FileInfo)
  | removeFilesWithSource (paths : List String)

/-- A pass with what it meets; a failed transaction of `faults` cuts it off. -/
structure StructuralEvent where
  op : StructuralOp
  reads : Reads
  faults : List (Option Unit) := []

/-- The files of the pass come from discovery. -/
def StructuralEvent.Discovered (e : StructuralEvent) : Prop :=
  match e.op with
  | .index report _ => Detected report.files
  | .indexFiles files => Detected files
  | .removeFilesWithSource _ => True

section History

variable {ρ β φ ν : Type}

/-- The index the pass leaves, finished or not -/
def StructuralEvent.after (x : Extraction ρ β) (s : Store ρ β φ ν) (e : StructuralEvent) : Store ρ β φ ν :=
  match e.op with
  | .index report strategy => (indexDiscoveryReport x e.reads report strategy ⟨s, e.faults⟩).2.state
  | .indexFiles files => (indexFiles x e.reads files ⟨s, e.faults⟩).2.state
  | .removeFilesWithSource paths => (removeFilesWithSource x e.reads paths ⟨s, e.faults⟩).2.state

/-- A pass that parses, removes or misses a Java file is not cut off and fails on no Java file, and where it
refreshes the other Java files of the index, they are on disk as they were indexed. -/
def StructuralEvent.Completes (s : Store ρ β φ ν) (e : StructuralEvent) : Prop :=
  match e.op with
  | .index report strategy => javaAffected s report strategy = true → e.faults = [] ∧ NoJavaFails e.reads report.files
  | .indexFiles files => (files.filter fun f => f.language = .java) ≠ [] →
      e.faults = [] ∧ NoJavaFails e.reads files ∧ JavaOnDisk e.reads s (files.map (·.path))
  | .removeFilesWithSource paths => removesJava s paths = true → e.faults = [] ∧ JavaOnDisk e.reads s paths

/-- Every pass of a history completes in the state it starts from. -/
def AllComplete (x : Extraction ρ β) : Store ρ β φ ν → List StructuralEvent → Prop
  | _, [] => True
  | s, e :: events => e.Completes s ∧ AllComplete x (e.after x s) events

variable {x : Extraction ρ β} {s : Store ρ β φ ν} {e : StructuralEvent}

theorem after_rowsOk (hdiscovered : e.Discovered) (hrows : RowsOk x s) : RowsOk x (e.after x s) := by
  obtain ⟨op, reads, faults⟩ := e
  cases op with
  | index report strategy => exact (indexDiscoveryReport_keeps (rowsOk_reportKeeps hdiscovered)).holds hrows faults
  | indexFiles files => exact (indexFiles_keeps (rowsOk_filesKeep hdiscovered)).holds hrows faults
  | removeFilesWithSource paths => exact (removeFilesWithSource_keeps rowsOk_removalKeeps).holds hrows faults

theorem SameRows.refl (hrows : RowsOk x s) : SameRows x s s := ⟨hrows, fun _ _ => rfl⟩

theorem headerChecked_sameRows (report : DiscoveryReport) (hrows : RowsOk x s) :
    SameRows x s (headerChecked s report) := by
  unfold headerChecked
  split
  · exact (SameRows.refl hrows).headersMarked
  · exact SameRows.refl hrows

theorem after_javaOk (hdiscovered : e.Discovered) (hcompletes : e.Completes s) (hrows : RowsOk x s)
    (hjava : JavaOk x s) : JavaOk x (e.after x s) := by
  have hrows' := after_rowsOk hdiscovered hrows
  obtain ⟨op, reads, faults⟩ := e
  -- a pass that spares the Java rows keeps what they say
  have hspared : ∀ s', RowsOk x s' → SameRows x s s' → JavaOk x s' :=
    fun s' h' hsame => javaOk_congr hrows h' hsame.2 hjava
  cases op with
  | index report strategy =>
    have hdetected : Detected report.files := hdiscovered
    by_cases haffected : javaAffected s report strategy = true
    · obtain ⟨rfl, hfine⟩ : faults = [] ∧ NoJavaFails reads report.files := hcompletes haffected
      obtain ⟨_, context, failed, s₁, s₂, hfinished⟩ :=
        (indexDiscoveryReport_safe report strategy).ends (indexDiscoveryReport_spec (x := x) (s := s) hdetected.unique)
      have hchecked := headerChecked_sameRows report hrows
      refine hfinished.javaOk hchecked.1 hrows' hdetected ?_ hfine
      rw [javaAffected_congr hrows hchecked.1 hchecked.2 hdetected, haffected]
    · rw [Bool.not_eq_true] at haffected
      exact hspared _ hrows' ((indexDiscoveryReport_keeps (sameRows_reportKeeps hrows hdetected haffected)).holds
        (SameRows.refl hrows) faults)
  | indexFiles files =>
    have hdetected : Detected files := hdiscovered
    by_cases hfiles : (files.filter fun f => f.language = .java) = []
    · exact hspared _ hrows' ((indexFiles_keeps (sameRows_filesKeep hdetected hfiles)).holds (SameRows.refl hrows) faults)
    · obtain ⟨rfl, hfine, hdisk⟩ : faults = [] ∧ NoJavaFails reads files ∧ JavaOnDisk reads s (files.map (·.path)) :=
        hcompletes hfiles
      obtain ⟨_, hok⟩ := (indexFiles_safe files).ends (indexFiles_javaOk hrows hdetected hfiles hfine hdisk)
      exact hok
  | removeFilesWithSource paths =>
    by_cases hremoves : removesJava s paths = true
    · obtain ⟨rfl, hdisk⟩ : faults = [] ∧ JavaOnDisk reads s paths := hcompletes hremoves
      obtain ⟨_, hok⟩ := (removeFilesWithSource_safe paths).ends (removeFilesWithSource_javaOk hrows hremoves hdisk)
      exact hok
    · rw [Bool.not_eq_true] at hremoves
      exact hspared _ hrows' ((removeFilesWithSource_keeps (sameRows_removalKeeps hrows hremoves)).holds
        (SameRows.refl hrows) faults)

theorem history_ok {events : List StructuralEvent} (hdiscovered : ∀ e ∈ events, e.Discovered)
    (hcomplete : AllComplete x s events) (hrows : RowsOk x s) (hjava : JavaOk x s) :
    RowsOk x (events.foldl (StructuralEvent.after x) s) ∧ JavaOk x (events.foldl (StructuralEvent.after x) s) := by
  induction events generalizing s with
  | nil => exact ⟨hrows, hjava⟩
  | cons e events ih =>
    have he := hdiscovered e List.mem_cons_self
    exact ih (fun e' he' => hdiscovered e' (List.mem_cons_of_mem _ he')) hcomplete.2 (after_rowsOk he hrows)
      (after_javaOk he hcomplete.1 hrows hjava)

end History

section Converges

variable {ρ β φ ν : Type} {x : Extraction ρ β} {s : Store ρ β φ ν} {report : DiscoveryReport} {reads : Reads}

/-- The same disk, and no failure -/
def Reads.fine (reads : Reads) : Reads where
  disk := reads.disk
  unreadable _ := false
  unwritable _ := false
  batchFails _ := false
  contextFails := false
  refreshFails := false

theorem incremental_settled (hrows : RowsOk x s) (hjava : JavaOk x s) (hdetected : Detected report.files)
    (haccurate : Accurate reads report) : Ends (indexDiscoveryReport x reads report .incremental) s
      (fun failed s' => failed = [] → Settled x reads report s' ∧ report.failedPaths = []) (fun _ _ => True) := by
  refine (indexDiscoveryReport_spec hdetected.unique).mono ?_ fun _ _ _ => trivial
  rintro allFailed s' ⟨context, failed, s₁, s₂, h⟩ hnone
  have hreport : report.failedPaths = [] := by
    refine List.eq_nil_iff_forall_not_mem.mpr fun path hpath => ?_
    have hmem := (h.all path).mpr (.inr (.inl hpath))
    rw [hnone] at hmem
    cases hmem
  have hchecked := headerChecked_sameRows report hrows
  have hjava' := javaOk_congr hrows hchecked.1 hchecked.2 hjava
  exact ⟨h.settled hdetected hnone fun f hf hskip =>
    skipped_settled hchecked.1 hjava' hdetected haccurate hreport hf hskip, hreport⟩

/-- A full pass that meets no failure has none. -/
theorem full_settled (hdetected : Detected report.files) (haccurate : Accurate reads report)
    (hreport : report.failedPaths = []) : Ends (indexDiscoveryReport x reads.fine report .full) s
      (fun failed s' => failed = [] ∧ Settled x reads report s') (fun _ _ => True) := by
  refine (indexDiscoveryReport_spec hdetected.unique).mono ?_ fun _ _ _ => trivial
  rintro allFailed s' ⟨context, failed, s₁, s₂, h⟩
  have hfailed : failed = [] := by
    refine List.eq_nil_iff_forall_not_mem.mpr fun path hpath => ?_
    obtain ⟨f, hf, -, hbad⟩ := h.wrote.failed path hpath
    have hmem : f ∈ report.files := by
      rcases h.chosen with ⟨-, hc, -⟩ | ⟨-, hc, -⟩
      · rw [hc] at hf
        exact filesToParse_sub (mem_parseable hf)
      · rw [hc] at hf
        exact filesToParse_sub (mem_parseable (List.mem_of_mem_filter hf))
    have hparse : parseFails reads.fine f = false := by
      simp [parseFails, Reads.fine, haccurate f hmem]
    rcases hbad with hbad | hbad
    · rw [hparse] at hbad
      cases hbad
    · cases hbad
  have hunavailable : unavailableJavaSource (headerChecked s report) report = false := by
    rw [unavailableJavaSource, hreport]
    rfl
  have hheld : context.2.2 = [] := by
    rcases h.chosen with ⟨-, -, hheld, -⟩ | ⟨-, -, -, -, hbad⟩
    · exact hheld
    · rw [hunavailable] at hbad
      cases hbad
  have hnone : allFailed = [] := by
    refine List.eq_nil_iff_forall_not_mem.mpr fun path hpath => ?_
    rw [h.all, hfailed, hreport, hheld] at hpath
    simp only [List.not_mem_nil, false_or] at hpath
    obtain ⟨f, hf, -, hnot⟩ := hpath
    rw [parseable, hreport] at hnot
    exact hnot hf
  have hsettled := h.settled hdetected hnone fun f hf hskip => absurd hf hskip
  exact ⟨hnone, hsettled.row, hsettled.none⟩

theorem Settled.lookup_eq {s' : Store ρ β φ ν} (h : Settled x reads report s) (h' : Settled x reads report s')
    (path : String) : s.files.lookup path = s'.files.lookup path := by
  by_cases hpath : ∃ f ∈ report.files, f.path = path
  · obtain ⟨f, hf, rfl⟩ := hpath
    rw [h.row f hf, h'.row f hf]
  · have hno : ∀ f ∈ report.files, f.path ≠ path := fun f hf heq => hpath ⟨f, hf, heq⟩
    rw [h.none path hno, h'.none path hno]

/-- After a history whose Java passes complete, an incremental pass without failure leaves the rows a full pass
over the same report leaves in an empty index. -/
theorem incremental_converges (x : Extraction ρ β) (events : List StructuralEvent)
    (hdiscovered : ∀ e ∈ events, e.Discovered) (hcomplete : AllComplete x ({} : Store ρ β φ ν) events)
    (report : DiscoveryReport) (hdetected : Detected report.files) (reads : Reads) (haccurate : Accurate reads report)
    (faults : List (Option Unit)) (w : World (Store ρ β φ ν) Unit)
    (hrun : indexDiscoveryReport x reads report .incremental ⟨events.foldl (StructuralEvent.after x) {}, faults⟩ =
      (.ok [], w)) :
    ∃ w' : World (Store ρ β φ ν) Unit, indexDiscoveryReport x reads.fine report .full ⟨{}, []⟩ = (.ok [], w') ∧
      ∀ path, w.state.files.lookup path = w'.state.files.lookup path := by
  have hempty : RowsOk x ({} : Store ρ β φ ν) := fun path row hrow => by cases hrow
  obtain ⟨hrows, hjava⟩ := history_ok hdiscovered hcomplete hempty fun _ path row hrow => by cases hrow
  obtain ⟨hsettled, hreport⟩ := (incremental_settled hrows hjava hdetected haccurate).returned hrun rfl
  obtain ⟨failed, s', hfull⟩ := indexDiscoveryReport_safe (x := x) (φ := φ) (ν := ν) report .full {}
  obtain ⟨rfl, hsettled'⟩ := (full_settled hdetected haccurate hreport).returned hfull
  exact ⟨⟨s', []⟩, hfull, hsettled.lookup_eq hsettled'⟩

end Converges

section Examples

/-- Trust boundaries of a Java file that name the Java files they were derived from -/
def countingExtraction : Extraction Unit Nat where
  symbols _ _ _ := []
  derived _ _ _ := ()
  boundaries _ _ language java := if language = .java then java.card else 0
  boundaries_of_ne_java _ _ _ _ hne := by simp [hne]

def oneDisk : Reads where
  disk _ := "1"
  unreadable _ := false
  unwritable _ := false
  batchFails _ := false
  contextFails := false
  refreshFails := false

def bothJava : DiscoveryReport := { files := [⟨"A.java", .java, "1"⟩, ⟨"B.java", .java, "1"⟩] }

def onlyB : DiscoveryReport := { files := [⟨"B.java", .java, "1"⟩] }

def bothAndPython : DiscoveryReport := { files := bothJava.files ++ [⟨"c.py", .python, "1"⟩] }

theorem bothAndPython_detected : Detected bothAndPython.files :=
  ⟨by decide, fun f hf => ⟨false, by revert f; decide⟩⟩

theorem bothJava_detected : Detected bothJava.files :=
  ⟨by decide, fun f hf => bothAndPython_detected.language f (List.mem_append_left _ hf)⟩

theorem onlyB_detected : Detected onlyB.files :=
  ⟨by decide, fun f hf => bothJava_detected.language f (List.mem_cons_of_mem _ hf)⟩

theorem onlyB_accurate : Accurate oneDisk onlyB := List.forall_mem_cons.mpr ⟨rfl, nofun⟩

/-- `A.java` goes; the pass that sees it dies after the transaction that removes it, before it parses `B.java`. -/
def cutHistory : List StructuralEvent :=
  [⟨.index bothJava .full, oneDisk, []⟩, ⟨.index onlyB .incremental, oneDisk, [none, some ()]⟩]

/-- The pass after such a history -/
def afterCut : Except Unit (List String) × World (Store Unit Nat Unit Unit) Unit :=
  indexDiscoveryReport countingExtraction oneDisk onlyB .incremental
    ⟨cutHistory.foldl (StructuralEvent.after countingExtraction) {}, []⟩

def fullOfB : Except Unit (List String) × World (Store Unit Nat Unit Unit) Unit :=
  indexDiscoveryReport countingExtraction oneDisk.fine onlyB .full ⟨{}, []⟩

/-- The next incremental pass skips `B.java`, whose boundaries still count `A.java`. -/
theorem cut_removal_leaves_stale_boundaries :
    (∀ e ∈ cutHistory, e.Discovered) ∧ Detected onlyB.files ∧ Accurate oneDisk onlyB ∧
      afterCut.1 = .ok [] ∧ fullOfB.1 = .ok [] ∧
      (afterCut.2.state.files.lookup "B.java").map (·.boundaries) = some 2 ∧
      (fullOfB.2.state.files.lookup "B.java").map (·.boundaries) = some 1 := by
  refine ⟨?_, onlyB_detected, onlyB_accurate, by decide, by decide, by decide, by decide⟩
  intro e he
  rcases List.mem_cons.mp he with rfl | he
  · exact bothJava_detected
  · rw [List.mem_singleton] at he
    rw [he]
    exact onlyB_detected

/-- The pass that removes `A.java` comes to its end; the one before it is cut off, over a Python file. -/
def wholeHistory : List StructuralEvent :=
  [⟨.index bothJava .full, oneDisk, []⟩, ⟨.index bothAndPython .incremental, oneDisk, [some ()]⟩,
    ⟨.index onlyB .incremental, oneDisk, []⟩]

theorem wholeHistory_discovered : ∀ e ∈ wholeHistory, e.Discovered := by
  simp only [wholeHistory, List.mem_cons, List.not_mem_nil, or_false, forall_eq_or_imp, forall_eq]
  exact ⟨bothJava_detected, bothAndPython_detected, onlyB_detected⟩

def afterWhole : Except Unit (List String) × World (Store Unit Nat Unit Unit) Unit :=
  indexDiscoveryReport countingExtraction oneDisk onlyB .incremental
    ⟨wholeHistory.foldl (StructuralEvent.after countingExtraction) {}, []⟩

theorem wholeHistory_runs : afterWhole.1 = .ok [] ∧
    AllComplete countingExtraction ({} : Store Unit Nat Unit Unit) wholeHistory := by
  have hfine : NoJavaFails oneDisk bothJava.files := by
    unfold NoJavaFails
    decide
  have hfine' : NoJavaFails oneDisk onlyB.files := by
    unfold NoJavaFails
    decide
  exact ⟨by decide +kernel, fun _ => ⟨rfl, hfine⟩, fun haffected => absurd haffected (by decide),
    fun _ => ⟨rfl, hfine'⟩, trivial⟩

theorem incremental_converges_whole : afterWhole.1 = .ok [] ∧ ∃ w' : World (Store Unit Nat Unit Unit) Unit,
    indexDiscoveryReport countingExtraction oneDisk.fine onlyB .full ⟨{}, []⟩ = (.ok [], w') ∧
    ∀ path, afterWhole.2.state.files.lookup path = w'.state.files.lookup path := by
  obtain ⟨hok, hcomplete⟩ := wholeHistory_runs
  have hrun : afterWhole = (.ok [], afterWhole.2) := Prod.mk.eta.symm.trans (congrArg (·, afterWhole.2) hok)
  exact ⟨hok, incremental_converges countingExtraction wholeHistory wholeHistory_discovered hcomplete onlyB
    onlyB_detected oneDisk onlyB_accurate [] afterWhole.2 hrun⟩

end Examples

end Graph
end CodeSage
