import CodeSage.Graph.StructuralIndexCorrect

/-!
# CodeSage.Graph.StructuralIndexRuns

Histories of structural passes. A pass that parses, removes or misses a Java file changes the context of the
boundaries of all Java files; the rows it did not get to carry no mark. `Completes` is what keeps them right:
such a pass is not cut off and fails on no Java file, and a refresh finds the indexed Java files on disk as
they were indexed.
-/

namespace CodeSage
namespace Graph

open Lib Lib.Prog
open CodeSage.Parser (Language FileInfo isCppEvidence endsWith)

variable {ρ β φ ν : Type} {x : Extraction ρ β} {reads : Reads} {s s' : Store ρ β φ ν}

/-- The pass parses or removes a Java file, or cannot read one. -/
def javaAffected (before : Store ρ β φ ν) (report : DiscoveryReport) (strategy : IndexStrategy) : Bool :=
  (filesToParse before report strategy).any (·.language = .java) || unavailableJavaSource before report
    || (orphansOf before report).any before.isJava

def NoJavaFails (reads : Reads) (files : List FileInfo) : Prop :=
  ∀ f ∈ files, f.language = .java → parseFails reads f = false ∧ reads.unwritable f.path = false

/-- The Java files of the index outside `paths` are on disk as they were indexed. -/
def JavaOnDisk (reads : Reads) (s : Store ρ β φ ν) (paths : List String) : Prop :=
  ∀ path row, s.files.lookup path = some row → row.language = .java → path ∉ paths → row.contentHash = reads.disk path

/-- Every Java row waits for a retry. -/
def JavaWaits (s : Store ρ β φ ν) : Prop :=
  ∀ path row, IsJavaPath path → s.files.lookup path = some row → row.interpretation ≠ some STRUCTURAL_INTERPRETATION

theorem JavaWaits.javaOk (hrows : RowsOk x s) (h : JavaWaits s) : JavaOk x s := by
  intro hcurrent path row hrow hjava
  exact absurd (hcurrent path row hrow hjava) (h path row ((hrows path row hrow).java.mp hjava) hrow)

theorem javaMarked_waits (hrows : RowsOk x s) : JavaWaits (javaMarked s) := by
  intro path row hpath hrow
  rw [javaMarked, lookup_markStale] at hrow
  obtain ⟨old, hold, rfl⟩ := Option.map_eq_some_iff.mp hrow
  have hjava := (hrows path old hold).java.mpr hpath
  simp only [hjava, decide_true, ite_true]
  exact fun hcur => javaMark_ne (Option.some_inj.mp hcur)

/-- Writes of other files and removals keep the Java rows waiting. -/
theorem JavaWaits.mono (h : JavaWaits s)
    (hlookup : ∀ path row, IsJavaPath path → s'.files.lookup path = some row → s.files.lookup path = some row) :
    JavaWaits s' := fun path row hpath hrow => h path row hpath (hlookup path row hpath hrow)

theorem sameJava_finallyChecked (failed : List String) (s : Store ρ β φ ν) : SameJava s (finallyChecked failed s) := by
  unfold finallyChecked
  split
  · exact sameJava_headersMarked s
  · exact fun _ _ => rfl

theorem lookup_purged {strategy : IndexStrategy} {failed : List String} {path : String} (hpath : path ∉ failed) :
    (purged strategy failed s).files.lookup path = s.files.lookup path := by
  unfold purged
  split
  · rw [lookup_foldl_removeStructuralFile, if_neg hpath]
  · rfl

theorem lookup_of_purged {strategy : IndexStrategy} {failed : List String} {path : String} {row : FileRow ρ β}
    (h : (purged strategy failed s).files.lookup path = some row) : s.files.lookup path = some row := by
  unfold purged at h
  split at h
  · rw [lookup_foldl_removeStructuralFile] at h
    exact (lookup_of_ite h).2
  · exact h

theorem find_path {files : List FileInfo} (hunique : (files.map (·.path)).Nodup) {f : FileInfo} (hf : f ∈ files) :
    files.find? (·.path = f.path) = some f := by
  obtain ⟨g, hg⟩ : ∃ g, files.find? (·.path = f.path) = some g := by
    rw [← Option.isSome_iff_exists, List.find?_isSome]
    exact ⟨f, hf, decide_eq_true rfl⟩
  have hpath : g.path = f.path := by simpa using List.find?_some hg
  rw [hg, eq_of_path hunique (List.mem_of_find?_eq_some hg) hf hpath]

section Report

variable {report : DiscoveryReport} {strategy : IndexStrategy} {before : Store ρ β φ ν}
  {context : Finset (String × String) × List FileInfo × List String} {failed allFailed : List String}
  {s₁ s₂ : Store ρ β φ ν}

theorem Finished.lookup_java (h : Finished x reads report strategy before context failed s₁ s₂ allFailed s')
    {path : String} {row : FileRow ρ β} (hpath : IsJavaPath path) (hrow : s'.files.lookup path = some row) :
    s₂.files.lookup path = some row := by
  rw [h.state, sameJava_finallyChecked _ _ path hpath] at hrow
  exact lookup_of_purged hrow

theorem filesToParse_of_java (haffected : javaAffected before report strategy = true) {f : FileInfo}
    (hf : f ∈ report.files) (hjava : f.language = .java) : f ∈ filesToParse before report strategy := by
  cases strategy with
  | full => exact hf
  | incremental =>
    have hchanged : javaChanged before report = true := by
      rw [javaAffected, Bool.or_eq_true, Bool.or_eq_true] at haffected
      rw [javaChanged, Bool.or_eq_true, Bool.or_eq_true]
      rcases haffected with (hany | hunavailable) | horphan
      · obtain ⟨g, hg, hlang⟩ := List.any_eq_true.mp hany
        obtain ⟨hmem, hsel⟩ := List.mem_filter.mp hg
        rw [Bool.or_eq_true] at hsel
        rcases hsel with hdiffers | hchanged
        · exact .inl (.inr (List.any_eq_true.mpr ⟨g, hmem, by rw [hlang, hdiffers]; rfl⟩))
        · rw [Bool.and_eq_true, javaChanged, Bool.or_eq_true, Bool.or_eq_true] at hchanged
          exact hchanged.2
      · exact .inl (.inl hunavailable)
      · exact .inr horphan
    exact List.mem_filter.mpr ⟨hf, by simp [hjava, hchanged]⟩

theorem parseable_of_java (hdetected : Detected report.files) (haffected : javaAffected before report strategy = true)
    {f : FileInfo} (hf : f ∈ report.files) (hjava : f.language = .java) : f ∈ parseable before report strategy := by
  have hsel := filesToParse_of_java haffected hf hjava
  have hpath := (hdetected.java hf).mp hjava
  rw [parseable]
  split
  · exact List.mem_filter.mpr ⟨hsel, by rw [not_header_of_java hpath]; rfl⟩
  · exact hsel

/-- Where the Java files are parsed, they are all parsed, and no other Java row is left. -/
theorem Finished.javaRow (h : Finished x reads report strategy before context failed s₁ s₂ allFailed s')
    (hrows : RowsOk x before) (hdetected : Detected report.files)
    (haffected : javaAffected before report strategy = true) (hfine : NoJavaFails reads report.files)
    (hs₁ : s₁ = (orphansOf before report).foldl Store.removeFile before)
    (hcontext : context.2.1 = parseable before report strategy)
    (havailable : unavailableJavaSource before report = false) {path : String} (hpath : IsJavaPath path) :
    s₂.files.lookup path = ((report.files.find? (·.path = path)).map fun f => (parseSource x reads context.1 f).row) ∧
      path ∉ failed := by
  have hnotFailed : path ∉ failed := by
    intro hmem
    obtain ⟨f, hf, rfl, hbad⟩ := h.wrote.failed path hmem
    rw [hcontext] at hf
    have hin := filesToParse_sub (mem_parseable hf)
    have hok := hfine f hin ((hdetected.java hin).mpr hpath)
    rcases hbad with hbad | hbad
    · rw [hok.1] at hbad
      cases hbad
    · rw [hok.2] at hbad
      cases hbad
  refine ⟨?_, hnotFailed⟩
  cases hfind : report.files.find? (·.path = path) with
  | some f =>
    have hf := List.mem_of_find?_eq_some hfind
    have hfpath : f.path = path := by simpa using List.find?_some hfind
    subst hfpath
    have hparse : f ∈ context.2.1 := by
      rw [hcontext]
      exact parseable_of_java hdetected haffected hf ((hdetected.java hf).mpr hpath)
    exact h.wrote.written f hparse hnotFailed
  | none =>
    have hnone : ∀ f ∈ report.files, f.path ≠ path := by simpa using hfind
    rw [h.wrote.other path fun f hf => ?_, hs₁, lookup_foldl_removeFile]
    · split
      · rfl
      · next horphan =>
        rw [Option.map_none]
        by_contra hrow
        obtain ⟨row, hrow⟩ := Option.ne_none_iff_exists'.mp hrow
        refine horphan (mem_orphansOf.mpr ⟨⟨row, hrow⟩, fun hmem => ?_⟩)
        rw [discoveredPaths, List.mem_append, List.mem_map] at hmem
        rcases hmem with ⟨f, hf, hfpath⟩ | hmem
        · exact hnone f hf hfpath
        · have := List.any_eq_false.mp havailable path hmem
          rw [(isJava_iff hrows path).mpr ⟨hpath, row, hrow⟩, Bool.or_true] at this
          exact this rfl
    · rw [hcontext] at hf
      exact hnone f (filesToParse_sub (mem_parseable hf))

theorem Finished.javaOk (h : Finished x reads report strategy before context failed s₁ s₂ allFailed s')
    (hrows : RowsOk x before) (hrows' : RowsOk x s') (hdetected : Detected report.files)
    (haffected : javaAffected before report strategy = true) (hfine : NoJavaFails reads report.files) :
    JavaOk x s' := by
  rcases h.chosen with ⟨hs₁, hcontext, -, havailable, hjava⟩ | ⟨hs₁, hcontext, -, -⟩
  · have hkey := fun {path} (hpath : IsJavaPath path) =>
      h.javaRow hrows hdetected haffected hfine hs₁ hcontext havailable hpath
    intro _ path row hrow hlang
    have hpath := (hrows' path row hrow).java.mp hlang
    have hrow₂ := h.lookup_java hpath hrow
    rw [(hkey hpath).1] at hrow₂
    obtain ⟨f, hfind, rfl⟩ := Option.map_eq_some_iff.mp hrow₂
    have hf := List.mem_of_find?_eq_some hfind
    have hfpath : f.path = path := by simpa using List.find?_some hfind
    subst hfpath
    have hlangf := (hdetected.java hf).mpr hpath
    have hany : (parseable before report strategy).any (·.language = .java) = true :=
       List.any_eq_true.mpr ⟨f, parseable_of_java hdetected haffected hf hlangf, decide_eq_true hlangf⟩
    -- the contents of the index are those of the context
    have hcontents : javaContents s' = context.1 := by
      rw [hjava hany]
      ext ⟨p, hash⟩
      simp only [mem_javaContents, javaContext, javaPathsOf, List.mem_toFinset, List.mem_map, List.mem_filter,
        decide_eq_true_eq, Prod.mk.injEq]
      constructor
      · rintro ⟨r, hr, hrlang, rfl⟩
        have hp := (hrows' p r hr).java.mp hrlang
        have hr₂ := h.lookup_java hp hr
        rw [(hkey hp).1] at hr₂
        obtain ⟨g, hg, rfl⟩ := Option.map_eq_some_iff.mp hr₂
        have hgmem := List.mem_of_find?_eq_some hg
        have hgpath : g.path = p := by simpa using List.find?_some hg
        subst hgpath
        exact ⟨g.path, ⟨g, ⟨hgmem, (hdetected.java hgmem).mpr hp⟩, rfl⟩, rfl, rfl⟩
      · rintro ⟨_, ⟨g, ⟨hg, hglang⟩, rfl⟩, rfl, rfl⟩
        have hp := (hdetected.java hg).mp hglang
        have hfind' := find_path hdetected.unique hg
        refine ⟨(parseSource x reads context.1 g).row, ?_, hglang, rfl⟩
        rw [h.state, sameJava_finallyChecked _ _ _ hp, lookup_purged (hkey hp).2, (hkey hp).1, hfind', Option.map_some]
    rw [hcontents]
    simp only [parseSource, hlangf]
  · have horphans := rowsOk_remove (orphansOf before report) hrows
    refine JavaWaits.javaOk hrows' ((javaMarked_waits horphans).mono fun path row hpath hrow => ?_)
    have hrow₂ := h.lookup_java hpath hrow
    rw [h.wrote.other path fun f hf => ?_, hs₁] at hrow₂
    · exact hrow₂
    · rw [hcontext] at hf
      obtain ⟨hf, hlang⟩ := List.mem_filter.mp hf
      rintro rfl
      have hin := filesToParse_sub (mem_parseable hf)
      exact (of_decide_eq_true hlang) ((hdetected.java hin).mpr hpath)

end Report

section Refresh

variable {files : List FileInfo} {paths : List String}

theorem javaPaths_iff (hrows : RowsOk x s) {path : String} :
    path ∈ s.javaPaths ↔ ∃ row, s.files.lookup path = some row ∧ row.language = .java := by
  rw [Store.javaPaths, List.mem_filter, isJava_iff hrows]
  constructor
  · rintro ⟨-, hpath, row, hrow⟩
    exact ⟨row, hrow, (hrows path row hrow).java.mpr hpath⟩
  · rintro ⟨row, hrow, hjava⟩
    refine ⟨?_, (hrows path row hrow).java.mp hjava, row, hrow⟩
    rw [← AList.mem_keys, mem_iff_lookup, hrow]
    exact Option.some_ne_none row

theorem refreshed_javaOk (hrows : RowsOk x s) (hdisk : JavaOnDisk reads s []) : JavaOk x (refreshedBoundaries x reads s) := by
  have hcontents : javaContents (refreshedBoundaries x reads s) = javaContext reads s.javaPaths := by
    ext ⟨path, hash⟩
    simp only [mem_javaContents, lookup_refreshedBoundaries, javaContext, List.mem_toFinset, List.mem_map,
      Prod.mk.injEq, javaPaths_iff hrows]
    constructor
    · rintro ⟨row, hrow, hjava, rfl⟩
      obtain ⟨old, hold, rfl⟩ := Option.map_eq_some_iff.mp hrow
      have hjavaOld : old.language = .java := by
        split at hjava <;> exact hjava
      refine ⟨path, ⟨old, hold, hjavaOld⟩, rfl, ?_⟩
      rw [if_pos hjavaOld]
      exact (hdisk path old hold hjavaOld (by simp)).symm
    · rintro ⟨_, ⟨old, hold, hjavaOld⟩, rfl, rfl⟩
      refine ⟨_, Option.map_eq_some_iff.mpr ⟨old, hold, rfl⟩, ?_⟩
      rw [if_pos hjavaOld]
      exact ⟨hjavaOld, hdisk _ old hold hjavaOld (by simp)⟩
  intro _ path row hrow hjava
  rw [hcontents]
  rw [lookup_refreshedBoundaries] at hrow
  obtain ⟨old, hold, rfl⟩ := Option.map_eq_some_iff.mp hrow
  have hjavaOld : old.language = .java := by
    split at hjava <;> exact hjava
  rw [if_pos hjavaOld]
  exact congrArg (fun h => x.boundaries path h .java _) (hdisk path old hold hjavaOld (by simp)).symm

theorem refreshJavaBoundaries_javaOk (hrows : RowsOk x s) (hdisk : JavaOnDisk reads s []) :
    Ends (refreshJavaBoundaries x reads) s (fun _ s' => JavaOk x s') (fun _ _ => True) := by
  rw [refreshJavaBoundaries]
  split
  · refine Ends.bind (Ends.commit (Q := fun _ s' => s' = javaMarked s) rfl fun _ => trivial) ?_
    rintro _ _ rfl
    exact Ends.pure ((javaMarked_waits hrows).javaOk (rowsOk_markStale javaMark_ne hrows))
  · refine Ends.bind (Ends.commit (Q := fun _ s' => s' = refreshedBoundaries x reads s) rfl fun _ => trivial) ?_
    rintro _ _ rfl
    exact Ends.pure (refreshed_javaOk hrows hdisk)

theorem indexFiles_javaOk (hrows : RowsOk x s) (hdetected : Detected files)
    (hjava : (files.filter fun f => f.language = .java) ≠ []) (hfine : NoJavaFails reads files)
    (hdisk : JavaOnDisk reads s (files.map (·.path))) :
    Ends (indexFiles x reads files) s (fun _ s' => JavaOk x s') (fun _ _ => True) := by
  have hempty : files.isEmpty = false := by
    cases files with
    | nil => exact absurd rfl hjava
    | cons f files => rfl
  rw [indexFiles, hempty, if_neg Bool.false_ne_true]
  refine Ends.state (Ends.bind (Q := fun _ s₁ => RowsOk x s₁ ∧ SameJava s s₁) ?_ ?_)
  · refine Ends.whenever (fun _ => Ends.commit ?_ fun _ => trivial) fun _ => ⟨hrows, fun _ _ => rfl⟩
    exact ⟨rowsOk_markStale headerMark_ne hrows, sameJava_headersMarked s⟩
  rintro _ s₁ ⟨hrows₁, hsame⟩
  have hwrite : ∀ java, ∀ f ∈ files, ∀ s : Store ρ β φ ν, RowsOk x s → RowsOk x (writeOne s (parseSource x reads java f)) :=
    fun java f hf s hs => rowsOk_write (hdetected.java hf) hs
  dsimp only [indexFilesInContext]
  rw [List.isEmpty_eq_false_iff.mpr hjava, Bool.not_false, Bool.true_and, if_neg Bool.false_ne_true]
  split
  · -- the context is not there: the Java rows are marked, and no Java file is written
    refine Ends.bind (Ends.commit (Q := fun _ s' => s' = javaMarked s₁) rfl fun _ => trivial) ?_
    rintro _ _ rfl
    refine Ends.bind (Ends.mono (indexBatches_keeps (P := fun s' => RowsOk x s' ∧ JavaWaits s') ?_ ?_)
      (fun _ _ hq => hq) fun _ _ _ => trivial) fun _ s₂ hs₂ => Ends.pure (hs₂.1.2.javaOk hs₂.1.1)
    · rintro f hf s' ⟨hr, hw⟩
      obtain ⟨hf, hlang⟩ := List.mem_filter.mp hf
      refine ⟨hwrite _ f hf s' hr, hw.mono fun path row hpath hrow => ?_⟩
      change (s'.files.insert f.path _).lookup path = some row at hrow
      rw [lookup_insert, if_neg] at hrow
      · exact hrow
      · rintro rfl
        exact (of_decide_eq_true hlang) ((hdetected.java hf).mpr hpath)
    · exact ⟨rowsOk_markStale javaMark_ne hrows₁, javaMarked_waits hrows₁⟩
  · generalize javaContext reads (s.javaPaths ++ (files.filter fun f => f.language = .java).map (·.path)) = java
    have hboth : Ends (indexBatches x reads java files) s₁
        (fun failed s₂ => RowsOk x s₂ ∧ JavaOnDisk reads s₂ []) (fun _ _ => True) := by
      intro faults
      have h₁ := indexBatches_keeps (P := RowsOk x) (hwrite java) hrows₁ faults
      have h₂ : Post (fun failed s' => Wrote x reads java files failed s₁ s') (fun _ _ => True) _ :=
        indexBatches_wrote hdetected.unique faults
      unfold Post at h₁ h₂ ⊢
      split
      · next hr =>
        rw [hr] at h₁ h₂
        refine ⟨h₁.1, fun path row hrow hlang _ => ?_⟩
        have hpath := (h₁.1 path row hrow).java.mp hlang
        by_cases hmem : ∃ f ∈ files, f.path = path
        · obtain ⟨f, hf, rfl⟩ := hmem
          have hok := hfine f hf ((hdetected.java hf).mpr hpath)
          rw [h₂.written f hf fun hfailed => ?_] at hrow
          · exact (Option.some_inj.mp hrow) ▸ rfl
          · obtain ⟨g, hg, hgpath, hbad⟩ := h₂.failed _ hfailed
            rw [eq_of_path hdetected.unique hg hf hgpath, hok.1, hok.2] at hbad
            rcases hbad with hbad | hbad <;> cases hbad
        · rw [h₂.other path fun f hf heq => hmem ⟨f, hf, heq⟩, hsame path hpath] at hrow
          refine hdisk path row hrow hlang fun hin => hmem ?_
          obtain ⟨f, hf, heq⟩ := List.mem_map.mp hin
          exact ⟨f, hf, heq⟩
      · trivial
    refine Ends.bind hboth fun failed s₂ hs₂ => ?_
    exact Ends.bind (refreshJavaBoundaries_javaOk hs₂.1 hs₂.2) fun _ _ hok => Ends.pure hok

theorem removeFilesWithSource_javaOk (hrows : RowsOk x s) (hremoves : removesJava s paths = true)
    (hdisk : JavaOnDisk reads s paths) :
    Ends (removeFilesWithSource x reads paths) s (fun _ s' => JavaOk x s') (fun _ _ => True) := by
  refine Ends.state (Ends.bind (Q := fun _ s₁ => RowsOk x s₁ ∧ JavaOnDisk reads s₁ []) ?_ ?_)
  · refine Ends.bind (Q := fun _ s₁ => RowsOk x s₁ ∧ SameJava s s₁) ?_ ?_
    · refine Ends.whenever (fun _ => Ends.commit ?_ fun _ => trivial) fun _ => ⟨hrows, fun _ _ => rfl⟩
      exact ⟨rowsOk_markStale headerMark_ne hrows, sameJava_headersMarked s⟩
    rintro _ s₁ ⟨hrows₁, hsame⟩
    refine Ends.commit ⟨rowsOk_remove paths hrows₁, fun path row hrow hlang _ => ?_⟩ fun _ => trivial
    rw [lookup_foldl_removeFile] at hrow
    obtain ⟨hnot, hrow⟩ := lookup_of_ite hrow
    rw [hsame path ((hrows₁ path row hrow).java.mp hlang)] at hrow
    exact hdisk path row hrow hlang hnot
  · rintro _ s₁ ⟨hrows₁, hdisk₁⟩
    rw [if_pos (show (paths.any fun path => endsWith path ".java" || s.isJava path) = true from hremoves)]
    exact refreshJavaBoundaries_javaOk hrows₁ hdisk₁

end Refresh

section Unaffected

variable {report : DiscoveryReport} {strategy : IndexStrategy} {files : List FileInfo} {paths : List String}

theorem differs_congr (hsame : SameJava s s') {f : FileInfo} (hpath : IsJavaPath f.path) :
    differs s' f = differs s f := by
  unfold differs Store.language
  rw [hsame f.path hpath]

/-- Conditions that agree on Java files agree on the Java files of a list. -/
theorem anyJava_congr {p q : FileInfo → Bool} (hdetected : Detected files)
    (h : ∀ f, IsJavaPath f.path → p f = q f) :
    (files.any fun f => f.language = .java && p f) = files.any fun f => f.language = .java && q f := by
  rw [Bool.eq_iff_iff, List.any_eq_true, List.any_eq_true]
  refine exists_congr fun f => and_congr_right fun hf => ?_
  rw [Bool.and_eq_true, Bool.and_eq_true, decide_eq_true_eq]
  exact and_congr_right fun hjava => by rw [h f ((hdetected.java hf).mp hjava)]

theorem isJava_congr (hrows : RowsOk x s) (hrows' : RowsOk x s') (hsame : SameJava s s') (path : String) :
    s'.isJava path = s.isJava path := by
  rw [Bool.eq_iff_iff, isJava_iff hrows', isJava_iff hrows]
  exact and_congr_right fun hpath => by rw [hsame path hpath]

theorem unavailableJavaSource_congr (hrows : RowsOk x s) (hrows' : RowsOk x s') (hsame : SameJava s s') :
    unavailableJavaSource s' report = unavailableJavaSource s report := by
  simp only [unavailableJavaSource, isJava_congr hrows hrows' hsame]

theorem javaOrphan_iff (hrows : RowsOk x s) : (orphansOf s report).any s.isJava = true ↔
    ∃ path, IsJavaPath path ∧ (∃ row, s.files.lookup path = some row) ∧ path ∉ discoveredPaths report := by
  simp only [List.any_eq_true, mem_orphansOf, isJava_iff hrows]
  constructor
  · rintro ⟨path, ⟨hrow, hnot⟩, hpath, -⟩
    exact ⟨path, hpath, hrow, hnot⟩
  · rintro ⟨path, hpath, hrow, hnot⟩
    exact ⟨path, ⟨hrow, hnot⟩, hpath, hrow⟩

theorem javaOrphan_congr (hrows : RowsOk x s) (hrows' : RowsOk x s') (hsame : SameJava s s') :
    (orphansOf s' report).any s'.isJava = (orphansOf s report).any s.isJava := by
  rw [Bool.eq_iff_iff, javaOrphan_iff hrows', javaOrphan_iff hrows]
  exact exists_congr fun path => and_congr_right fun hpath => by rw [hsame path hpath]

theorem javaChanged_congr (hrows : RowsOk x s) (hrows' : RowsOk x s') (hsame : SameJava s s')
    (hdetected : Detected report.files) : javaChanged s' report = javaChanged s report := by
  rw [javaChanged, javaChanged, unavailableJavaSource_congr hrows hrows' hsame, javaOrphan_congr hrows hrows' hsame]
  rw [anyJava_congr hdetected fun f hpath => differs_congr hsame hpath]

/-- Whether a pass affects Java files is decided by the Java rows. -/
theorem javaAffected_congr (hrows : RowsOk x s) (hrows' : RowsOk x s') (hsame : SameJava s s')
    (hdetected : Detected report.files) : javaAffected s' report strategy = javaAffected s report strategy := by
  rw [javaAffected, javaAffected, unavailableJavaSource_congr hrows hrows' hsame, javaOrphan_congr hrows hrows' hsame]
  congr 2
  cases strategy with
  | full => rfl
  | incremental =>
    simp only [filesToParse, List.any_filter, javaChanged_congr hrows hrows' hsame hdetected, Bool.and_comm]
    exact anyJava_congr hdetected fun f hpath => by rw [differs_congr hsame hpath]

/-- Well-formed rows, and the Java rows of `s` -/
def SameRows (x : Extraction ρ β) (s s' : Store ρ β φ ν) : Prop := RowsOk x s' ∧ SameJava s s'

variable {s₀ : Store ρ β φ ν}

theorem SameRows.headersMarked (h : SameRows x s₀ s) : SameRows x s₀ (headersMarked s) :=
  ⟨rowsOk_markStale headerMark_ne h.1, fun path hpath => (sameJava_headersMarked s path hpath).trans (h.2 path hpath)⟩

theorem SameRows.write {java : Finset (String × String)} {f : FileInfo} (h : SameRows x s₀ s) (hdetected : Detected files)
    (hf : f ∈ files) (hlang : f.language ≠ .java) : SameRows x s₀ (writeOne s (parseSource x reads java f)) := by
  refine ⟨rowsOk_write (hdetected.java hf) h.1, fun path hpath => ?_⟩
  change (s.files.insert f.path _).lookup path = _
  rw [lookup_insert, if_neg]
  · exact h.2 path hpath
  · rintro rfl
    exact hlang ((hdetected.java hf).mpr hpath)

/-- Removals that spare the Java rows -/
theorem SameRows.remove (h : SameRows x s₀ s) (hspare : ∀ path ∈ paths, ¬ (IsJavaPath path ∧ ∃ row, s.files.lookup path = some row)) :
    SameRows x s₀ (paths.foldl Store.removeFile s) := by
  refine ⟨rowsOk_remove paths h.1, fun path hpath => ?_⟩
  rw [lookup_foldl_removeFile]
  split
  · next hmem =>
    rw [← h.2 path hpath]
    by_contra hrow
    exact hspare path hmem ⟨hpath, Option.ne_none_iff_exists'.mp (Ne.symm hrow)⟩
  · exact h.2 path hpath

theorem filesToParse_not_java (hclean : javaAffected s report strategy = false) {f : FileInfo}
    (hf : f ∈ filesToParse s report strategy) : f.language ≠ .java := by
  rw [javaAffected, Bool.or_eq_false_iff, Bool.or_eq_false_iff] at hclean
  simpa using List.any_eq_false.mp hclean.1.1 f hf

theorem sameRows_reportKeeps (hrows : RowsOk x s₀) (hdetected : Detected report.files)
    (hclean : javaAffected s₀ report strategy = false) : ReportKeeps x reads report strategy (SameRows x s₀) := by
  have hclean' : ∀ s, SameRows x s₀ s → javaAffected s report strategy = false :=
    fun s h => (javaAffected_congr hrows h.1 h.2 hdetected).trans hclean
  refine ⟨fun s h => h.headersMarked, ?_, ?_, ?_, ?_⟩
  · intro before s hbefore hcond
    have hfalse := hclean' before hbefore
    rw [javaAffected, Bool.or_eq_false_iff, Bool.or_eq_false_iff] at hfalse
    rcases hcond with hcond | hcond
    · rw [hfalse.1.1] at hcond
      cases hcond
    · rw [hfalse.1.2] at hcond
      cases hcond
  · intro before s hbefore hs
    refine hs.remove fun path horphan hjava => ?_
    have hfalse := (Bool.or_eq_false_iff.mp (hclean' before hbefore)).2
    obtain ⟨hrow, hnot⟩ := mem_orphansOf.mp horphan
    rw [(javaOrphan_iff hbefore.1).mpr ⟨path, hjava.1, hrow, hnot⟩] at hfalse
    cases hfalse
  · intro before s java f hbefore hf hs
    exact hs.write hdetected (filesToParse_sub hf) (filesToParse_not_java (hclean' before hbefore) hf)
  · intro before s failed hbefore hfailed hs
    refine ⟨rowsOk_removeStructural failed hs.1, fun path hpath => ?_⟩
    rw [lookup_foldl_removeStructuralFile, if_neg]
    · exact hs.2 path hpath
    · intro hmem
      obtain ⟨f, hf, rfl⟩ := hfailed path hmem
      exact filesToParse_not_java (hclean' before hbefore) hf ((hdetected.java (filesToParse_sub hf)).mpr hpath)

theorem sameRows_filesKeep (hdetected : Detected files) (hclean : (files.filter fun f => f.language = .java) = []) :
    FilesKeep x reads files (SameRows x s₀) := by
  refine ⟨fun s h => h.headersMarked, fun hjava => absurd hclean hjava, fun hjava => absurd hclean hjava, ?_⟩
  intro s java f hf hs
  refine hs.write hdetected hf fun hlang => ?_
  have hmem : f ∈ files.filter fun f => f.language = .java := List.mem_filter.mpr ⟨hf, decide_eq_true hlang⟩
  rw [hclean] at hmem
  cases hmem

theorem removesJava_congr (hrows : RowsOk x s) (hrows' : RowsOk x s') (hsame : SameJava s s') :
    removesJava s' paths = removesJava s paths := by
  simp only [removesJava, isJava_congr hrows hrows' hsame]

theorem sameRows_removalKeeps (hrows : RowsOk x s₀) (hclean : removesJava s₀ paths = false) :
    RemovalKeeps x reads paths (SameRows x s₀) := by
  have hclean' : ∀ s, SameRows x s₀ s → ¬ removesJava s paths = true := by
    intro s h
    rw [removesJava_congr hrows h.1 h.2, hclean]
    exact Bool.false_ne_true
  refine ⟨fun s h => h.headersMarked, ?_, fun before h hcond => absurd hcond (hclean' before h),
    fun before h hcond => absurd hcond (hclean' before h)⟩
  intro s hs
  refine hs.remove fun path hmem hjava => hclean' s hs ?_
  refine List.any_eq_true.mpr ⟨path, hmem, ?_⟩
  rw [(isJava_iff hs.1 path).mpr hjava, Bool.or_true]

theorem rowsOk_reportKeeps (hdetected : Detected report.files) :
    ReportKeeps x reads report strategy (RowsOk x (φ := φ) (ν := ν)) where
  header _ h := rowsOk_markStale headerMark_ne h
  java _ _ _ _ h := rowsOk_markStale javaMark_ne h
  orphans _ _ _ h := rowsOk_remove _ h
  write _ _ _ _ _ hf h := rowsOk_write (hdetected.java (filesToParse_sub hf)) h
  purge _ _ _ _ _ h := rowsOk_removeStructural _ h

theorem rowsOk_filesKeep (hdetected : Detected files) : FilesKeep x reads files (RowsOk x (φ := φ) (ν := ν)) where
  header _ h := rowsOk_markStale headerMark_ne h
  java _ _ h := rowsOk_markStale javaMark_ne h
  refresh _ _ h := rowsOk_refresh h
  write _ _ _ hf h := rowsOk_write (hdetected.java hf) h

theorem rowsOk_removalKeeps : RemovalKeeps x reads paths (RowsOk x (φ := φ) (ν := ν)) where
  header _ h := rowsOk_markStale headerMark_ne h
  remove _ h := rowsOk_remove _ h
  java _ _ _ _ h := rowsOk_markStale javaMark_ne h
  refresh _ _ _ _ h := rowsOk_refresh h

end Unaffected

end Graph
end CodeSage
