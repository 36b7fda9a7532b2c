import Mathlib.Data.List.Nodup
import CodeSage.Graph.StructuralIndex
import CodeSage.Lib.Steps

/-!
# CodeSage.Graph.StructuralIndexCorrect

What the structural passes leave behind, cut off anywhere. A row under the current interpretation is what its
content and language give (`RowsOk`), whatever happened; the trust boundaries of Java files also depend on
the other Java files, and there only passes that finish their Java files keep them right (`JavaOk`).

* `Wrote`: the one description of a loop over batches, with the files it failed on.
* `Settled`: the rows a full pass leaves.
* `incremental_settles`: an incremental pass without failures reaches them.
-/

namespace CodeSage
namespace Graph

open Lib Lib.Prog
open CodeSage.Parser (Language FileInfo isCppEvidence endsWith)

variable {ρ β φ ν : Type} {x : Extraction ρ β} {reads : Reads} {s s' : Store ρ β φ ν}

def IsJavaPath (path : String) : Prop := Parser.extension path = some "java"

/-- Files as discovery reports them: each path once, with the language its name gives. -/
structure Detected (files : List FileInfo) : Prop where
  unique : (files.map (·.path)).Nodup
  language : ∀ f ∈ files, ∃ headerIsCpp, Parser.detectLanguageWithDialect f.path headerIsCpp = some f.language

theorem detect_of_java {path : String} (headerIsCpp : Bool) (h : IsJavaPath path) :
    Parser.detectLanguageWithDialect path headerIsCpp = some .java := by
  rw [Parser.detectLanguageWithDialect, show Parser.extension path = some "java" from h, Option.bind_some]
  simp [Parser.isUnambiguousCppExtension]

theorem java_of_detect {path : String} {headerIsCpp : Bool}
    (h : Parser.detectLanguageWithDialect path headerIsCpp = some .java) : IsJavaPath path := by
  unfold Parser.detectLanguageWithDialect at h
  obtain ⟨ext, hext, h⟩ := Option.bind_eq_some_iff.mp h
  rw [IsJavaPath, hext, Option.some_inj]
  by_cases hjava : ext = "java"
  · exact hjava
  · rw [if_neg hjava] at h
    repeat' split at h
    all_goals cases h

theorem Detected.java {files : List FileInfo} (h : Detected files) {f : FileInfo} (hf : f ∈ files) :
    f.language = .java ↔ IsJavaPath f.path := by
  obtain ⟨headerIsCpp, hd⟩ := h.language f hf
  constructor
  · intro hjava
    exact java_of_detect (hjava ▸ hd)
  · intro hpath
    rw [detect_of_java headerIsCpp hpath] at hd
    exact (Option.some_inj.mp hd).symm

section Keeping

variable {P : Store ρ β φ ν → Prop}

theorem writeParsedBatch_keeps {n : Nat} {parsed : List (ParsedFile ρ β)}
    (hwrite : ∀ p ∈ parsed, ∀ s, P s → P (writeOne s p)) (hs : P s) :
    Ends (writeParsedBatch reads n parsed) s (fun failed s' => P s' ∧ ∀ path ∈ failed, ∃ p ∈ parsed, p.path = path)
      (fun _ s' => P s') := by
  rw [writeParsedBatch]
  split
  · exact Ends.pure ⟨hs, by simp⟩
  split
  · refine Ends.fold (I := fun done failed s' => P s' ∧ ∀ path ∈ failed, ∃ p ∈ parsed, p.path = path) ⟨hs, by simp⟩ ?_
    rintro done p rest failed s' hparsed ⟨hs', hfailed⟩
    have hp : p ∈ parsed := by simp [hparsed]
    rw [writeEach]
    split
    · refine Ends.pure ⟨hs', fun path hpath => ?_⟩
      rcases List.mem_append.mp hpath with hpath | hpath
      · exact hfailed path hpath
      · rw [List.mem_singleton] at hpath
        exact ⟨p, hp, hpath.symm⟩
    · refine Ends.bind (Ends.commit (Q := fun _ s'' => P s'') (hwrite p hp s' hs') fun _ => hs') ?_
      exact fun _ s'' hs'' => Ends.pure ⟨hs'', hfailed⟩
  · have hall : P (parsed.foldl writeOne s) := by
      have key : ∀ (rest : List (ParsedFile ρ β)) (s' : Store ρ β φ ν), rest ⊆ parsed → P s' → P (rest.foldl writeOne s') := by
        intro rest
        induction rest with
        | nil => exact fun _ _ h => h
        | cons p rest ih =>
          intro s' hsub h
          exact ih _ (List.subset_of_cons_subset hsub) (hwrite p (hsub List.mem_cons_self) s' h)
      exact key parsed s (List.Subset.refl _) hs
    refine Ends.bind (Ends.commit (Q := fun _ s'' => P s'') hall fun _ => hs) ?_
    exact fun _ s'' hs'' => Ends.pure ⟨hs'', by simp⟩

theorem mem_parseBatch {java : Finset (String × String)} {batch : List FileInfo} {p : ParsedFile ρ β}
    (h : p ∈ (parseBatch x reads java batch).1) : ∃ f ∈ batch, p = parseSource x reads java f := by
  obtain ⟨f, hf, rfl⟩ := List.mem_map.mp h
  exact ⟨f, List.mem_of_mem_filter hf, rfl⟩

theorem mem_failed_parseBatch {java : Finset (String × String)} {batch : List FileInfo} {path : String}
    (h : path ∈ (parseBatch x reads java batch).2) : ∃ f ∈ batch, f.path = path ∧ parseFails reads f = true := by
  obtain ⟨f, hf, rfl⟩ := List.mem_map.mp h
  exact ⟨f, List.mem_of_mem_filter hf, rfl, (List.mem_filter.mp hf).2⟩

/-- Every transaction of the loop is a write of one of its files. -/
theorem indexBatches_keeps {java : Finset (String × String)} {toParse : List FileInfo}
    (hwrite : ∀ f ∈ toParse, ∀ s, P s → P (writeOne s (parseSource x reads java f))) (hs : P s) :
    Ends (indexBatches x reads java toParse) s
      (fun failed s' => P s' ∧ ∀ path ∈ failed, ∃ f ∈ toParse, f.path = path) (fun _ s' => P s') := by
  refine Ends.bind (Ends.fold (I := fun _ acc s' => P s' ∧ ∀ path ∈ acc.1, ∃ f ∈ toParse, f.path = path)
    ⟨hs, by simp⟩ ?_) fun acc s' h => Ends.pure h
  rintro done batch rest acc s' hslices ⟨hs', hacc⟩
  have hsub : ∀ f ∈ batch, f ∈ toParse := by
    intro f hf
    rw [← slices_flatten STRUCTURAL_INDEX_BATCH_SIZE toParse, hslices]
    simp [hf]
  refine Ends.bind (writeParsedBatch_keeps (P := P) ?_ hs') ?_
  · intro p hp s hs
    obtain ⟨f, hf, rfl⟩ := mem_parseBatch hp
    exact hwrite f (hsub f hf) s hs
  · rintro rejected s'' ⟨hs'', hrejected⟩
    refine Ends.pure ⟨hs'', fun path hpath => ?_⟩
    rcases List.mem_append.mp hpath with hpath | hpath
    · rcases List.mem_append.mp hpath with hpath | hpath
      · exact hacc path hpath
      · obtain ⟨f, hf, hpath, -⟩ := mem_failed_parseBatch hpath
        exact ⟨f, hsub f hf, hpath⟩
    · obtain ⟨p, hp, rfl⟩ := hrejected path hpath
      obtain ⟨f, hf, rfl⟩ := mem_parseBatch hp
      exact ⟨f, hsub f hf, rfl⟩

/-- Every transaction of a pass over a discovery report keeps `P`. -/
structure ReportKeeps (x : Extraction ρ β) (reads : Reads) (report : DiscoveryReport) (strategy : IndexStrategy)
    (P : Store ρ β φ ν → Prop) : Prop where
  header : ∀ s, P s → P (headersMarked s)
  java : ∀ before s, P before → (filesToParse before report strategy).any (·.language = .java) = true ∨
    unavailableJavaSource before report = true → P s → P (javaMarked s)
  orphans : ∀ before s, P before → P s → P ((orphansOf before report).foldl Store.removeFile s)
  write : ∀ before s java f, P before → f ∈ filesToParse before report strategy → P s →
    P (writeOne s (parseSource x reads java f))
  purge : ∀ before s (failed : List String), P before → (∀ path ∈ failed, ∃ f ∈ filesToParse before report strategy, f.path = path) →
    P s → P (failed.foldl Store.removeStructuralFile s)

theorem chooseJavaContext_keeps {javaPaths : List String} {unavailable : Bool} {toParse : List FileInfo}
    (hjava : toParse.any (·.language = .java) = true ∨ unavailable = true → ∀ s, P s → P (javaMarked s)) (hs : P s) :
    Ends (chooseJavaContext reads javaPaths unavailable toParse) s
      (fun context s' => P s' ∧ ∀ f ∈ context.2.1, f ∈ toParse) (fun _ s' => P s') := by
  rw [chooseJavaContext]
  split
  · next hcond =>
    rw [Bool.or_eq_true] at hcond
    split
    · refine Ends.bind (Ends.commit (Q := fun _ s' => P s') (hjava hcond s hs) fun _ => hs) fun _ s' hs' => ?_
      exact Ends.pure ⟨hs', fun f hf => List.mem_of_mem_filter hf⟩
    · exact Ends.pure ⟨hs, fun f hf => hf⟩
  · exact Ends.pure ⟨hs, fun f hf => hf⟩

theorem indexSelected_keeps {report : DiscoveryReport} {strategy : IndexStrategy} {before : Store ρ β φ ν}
    (hk : ReportKeeps x reads report strategy P) (hbefore : P before) (hs : P s) :
    Ends (indexSelected x reads report strategy before) s (fun _ s' => P s') (fun _ s' => P s') := by
  dsimp only [indexSelected]
  generalize htoParse : (if report.failedPaths.any isHeaderContextPath then
    (filesToParse before report strategy).filter fun f => !endsWith f.path ".h"
    else filesToParse before report strategy) = toParse
  have hsub : ∀ f ∈ toParse, f ∈ filesToParse before report strategy := by
    rw [← htoParse]
    intro f hf
    split at hf
    · exact List.mem_of_mem_filter hf
    · exact hf
  have hjava : toParse.any (·.language = .java) = true ∨ unavailableJavaSource before report = true →
      ∀ s, P s → P (javaMarked s) := by
    intro hcond s hs
    refine hk.java before s hbefore (hcond.imp_left fun hany => ?_) hs
    obtain ⟨f, hf, hlang⟩ := List.any_eq_true.mp hany
    exact List.any_eq_true.mpr ⟨f, hsub f hf, hlang⟩
  refine Ends.bind (chooseJavaContext_keeps hjava hs) ?_
  rintro context s₁ ⟨hs₁, hcontext⟩
  refine Ends.bind (indexBatches_keeps (P := P) (fun f hf s hs => ?_) hs₁) ?_
  · exact hk.write before s _ f hbefore (hsub f (hcontext f hf)) hs
  rintro failed s₂ ⟨hs₂, hfailed⟩
  have hpurge : P (failed.foldl Store.removeStructuralFile s₂) := by
    refine hk.purge before s₂ failed hbefore (fun path hpath => ?_) hs₂
    obtain ⟨f, hf, rfl⟩ := hfailed path hpath
    exact ⟨f, hsub f (hcontext f hf), rfl⟩
  refine Ends.bind (Ends.whenever (Q := fun _ s' => P s') (fun _ => Ends.commit hpurge fun _ => hs₂) fun _ => hs₂) ?_
  intro _ s₃ hs₃
  refine Ends.bind (Ends.whenever (Q := fun _ s' => P s') (fun _ => ?_) fun _ => hs₃) fun _ s₄ hs₄ => Ends.pure hs₄
  exact Ends.commit (hk.header s₃ hs₃) fun _ => hs₃

theorem indexDiscoveryReport_keeps {report : DiscoveryReport} {strategy : IndexStrategy}
    (hk : ReportKeeps x reads report strategy P) : Keeps P (indexDiscoveryReport x reads report strategy) := by
  refine Keeps.state fun s hs => ?_
  refine Ends.bind (Ends.whenever (Q := fun _ s' => P s') (fun _ => ?_) fun _ => hs) fun _ s₁ hs₁ => ?_
  · exact Ends.commit (hk.header s hs) fun _ => hs
  refine Ends.state (Ends.bind (Ends.whenever (Q := fun _ s' => P s') (fun _ => ?_) fun _ => hs₁) fun _ s₂ hs₂ => ?_)
  · exact Ends.commit (hk.orphans s₁ s₁ hs₁ hs₁) fun _ => hs₁
  · exact indexSelected_keeps hk hs₁ hs₂

theorem refreshJavaBoundaries_keeps (hmark : P s → P (javaMarked s)) (hrefresh : P s → P (refreshedBoundaries x reads s))
    (hs : P s) : Ends (refreshJavaBoundaries x reads) s (fun _ s' => P s') (fun _ s' => P s') := by
  rw [refreshJavaBoundaries]
  split
  · exact Ends.bind (Ends.commit (Q := fun _ s' => P s') (hmark hs) fun _ => hs) fun _ s' hs' => Ends.pure hs'
  · exact Ends.bind (Ends.commit (Q := fun _ s' => P s') (hrefresh hs) fun _ => hs) fun _ s' hs' => Ends.pure hs'

/-- Every transaction of `index_files` keeps `P`. -/
structure FilesKeep (x : Extraction ρ β) (reads : Reads) (files : List FileInfo) (P : Store ρ β φ ν → Prop) : Prop where
  header : ∀ s, P s → P (headersMarked s)
  java : (files.filter fun f => f.language = .java) ≠ [] → ∀ s, P s → P (javaMarked s)
  refresh : (files.filter fun f => f.language = .java) ≠ [] → ∀ s, P s → P (refreshedBoundaries x reads s)
  write : ∀ s java, ∀ f ∈ files, P s → P (writeOne s (parseSource x reads java f))

theorem indexFilesInContext_keeps {files : List FileInfo} (hk : FilesKeep x reads files P) (before : Store ρ β φ ν)
    (hs : P s) : Ends (indexFilesInContext x reads files before) s (fun _ s' => P s') (fun _ s' => P s') := by
  dsimp only [indexFilesInContext]
  split
  · next hcond =>
    rw [Bool.and_eq_true, Bool.not_eq_true', List.isEmpty_eq_false_iff] at hcond
    refine Ends.bind (Ends.commit (Q := fun _ s' => P s') (hk.java hcond.1 s hs) fun _ => hs) fun _ s₁ hs₁ => ?_
    refine Ends.bind (indexBatches_keeps (P := P) (fun f hf s hs => ?_) hs₁) fun _ s₂ hs₂ => Ends.pure hs₂.1
    exact hk.write s _ f (List.mem_of_mem_filter hf) hs
  · refine Ends.bind (indexBatches_keeps (P := P) (fun f hf s hs => hk.write s _ f hf hs) hs) fun _ s₁ hs₁ => ?_
    split
    · exact Ends.pure hs₁.1
    · next hjava =>
      rw [List.isEmpty_iff] at hjava
      exact Ends.bind (refreshJavaBoundaries_keeps (hk.java hjava s₁) (hk.refresh hjava s₁) hs₁.1) fun _ s₂ hs₂ =>
        Ends.pure hs₂

theorem indexFiles_keeps {files : List FileInfo} (hk : FilesKeep x reads files P) :
    Keeps P (indexFiles x reads files) := by
  rw [indexFiles]
  split
  · exact Keeps.pure
  · refine Keeps.state fun s hs => ?_
    refine Ends.bind (Ends.whenever (Q := fun _ s' => P s') (fun _ => ?_) fun _ => hs) fun _ s₁ hs₁ => ?_
    · exact Ends.commit (hk.header s hs) fun _ => hs
    · exact indexFilesInContext_keeps hk s hs₁

/-- The removed paths touch a Java file. -/
def removesJava (s : Store ρ β φ ν) (paths : List String) : Bool :=
  paths.any fun path => endsWith path ".java" || s.isJava path

/-- Every transaction of `remove_files_with_source` keeps `P`. -/
structure RemovalKeeps (x : Extraction ρ β) (reads : Reads) (paths : List String) (P : Store ρ β φ ν → Prop) : Prop where
  header : ∀ s, P s → P (headersMarked s)
  remove : ∀ s, P s → P (paths.foldl Store.removeFile s)
  java : ∀ before, P before → removesJava before paths = true → ∀ s, P s → P (javaMarked s)
  refresh : ∀ before, P before → removesJava before paths = true → ∀ s, P s → P (refreshedBoundaries x reads s)

theorem removeFiles_keeps {paths : List String} (hheader : ∀ s, P s → P (headersMarked s))
    (hremove : ∀ s, P s → P (paths.foldl Store.removeFile s)) : Keeps P (removeFiles paths) :=
  Keeps.bind (Keeps.whenever fun _ => Keeps.commit hheader) fun _ => Keeps.commit hremove

theorem removeFilesWithSource_keeps {paths : List String} (hk : RemovalKeeps x reads paths P) :
    Keeps P (removeFilesWithSource x reads paths) := by
  refine Keeps.state fun s hs => ?_
  refine Ends.bind (removeFiles_keeps hk.header hk.remove s hs) fun _ s₁ hs₁ => ?_
  split
  · next hjava => exact refreshJavaBoundaries_keeps (hk.java s hs hjava s₁) (hk.refresh s hs hjava s₁) hs₁
  · exact Ends.pure hs₁

end Keeping

section Rows

/-- A row under the current interpretation is what its content and language give, but for Java boundaries. -/
structure RowOk (x : Extraction ρ β) (path : String) (row : FileRow ρ β) : Prop where
  symbols : row.interpretation = some STRUCTURAL_INTERPRETATION → row.symbols = x.symbols path row.contentHash row.language
  derived : row.interpretation = some STRUCTURAL_INTERPRETATION → row.derived = x.derived path row.contentHash row.language
  boundaries : row.interpretation = some STRUCTURAL_INTERPRETATION → row.language ≠ .java →
    row.boundaries = x.boundaries path row.contentHash row.language ∅
  java : row.language = .java ↔ IsJavaPath path

def RowsOk (x : Extraction ρ β) (s : Store ρ β φ ν) : Prop := ∀ path row, s.files.lookup path = some row → RowOk x path row

theorem lookup_markStale {mark : String} {picks : String → FileRow ρ β → Bool} (path : String) :
    (markStale mark picks s).files.lookup path = (s.files.lookup path).map fun row =>
      if picks path row then { row with interpretation := some mark } else row :=
  Table.lookup_mapRows _ _ _

theorem rowsOk_markStale {mark : String} {picks : String → FileRow ρ β → Bool}
    (hmark : mark ≠ STRUCTURAL_INTERPRETATION) (h : RowsOk x s) : RowsOk x (markStale mark picks s) := by
  intro path row hrow
  rw [lookup_markStale] at hrow
  obtain ⟨old, hold, rfl⟩ := Option.map_eq_some_iff.mp hrow
  have hok := h path old hold
  split
  · refine ⟨fun hcur => ?_, fun hcur => ?_, fun hcur => ?_, hok.java⟩ <;>
      exact absurd (Option.some_inj.mp hcur) hmark
  · exact hok

theorem headerMark_ne : "codesage/structural/header-context-stale" ≠ STRUCTURAL_INTERPRETATION := by decide

theorem javaMark_ne : "codesage/structural/java-context-stale" ≠ STRUCTURAL_INTERPRETATION := by decide

theorem rowsOk_of_lookup (h : RowsOk x s)
    (hlookup : ∀ path row, s'.files.lookup path = some row → s.files.lookup path = some row) : RowsOk x s' :=
  fun path row hrow => h path row (hlookup path row hrow)

theorem lookup_foldl_removeFile (paths : List String) (s : Store ρ β φ ν) (path : String) :
    (paths.foldl Store.removeFile s).files.lookup path = if path ∈ paths then none else s.files.lookup path := by
  induction paths generalizing s with
  | nil => rfl
  | cons p paths ih =>
    rw [List.foldl_cons, ih, Store.removeFile, lookup_erase]
    by_cases hmem : path ∈ paths
    · simp [hmem]
    · by_cases hp : path = p <;> simp [hmem, hp]

theorem lookup_foldl_removeStructuralFile (paths : List String) (s : Store ρ β φ ν) (path : String) :
    (paths.foldl Store.removeStructuralFile s).files.lookup path =
      if path ∈ paths then none else s.files.lookup path := by
  induction paths generalizing s with
  | nil => rfl
  | cons p paths ih =>
    rw [List.foldl_cons, ih, Store.removeStructuralFile, lookup_erase]
    by_cases hmem : path ∈ paths
    · simp [hmem]
    · by_cases hp : path = p <;> simp [hmem, hp]

theorem lookup_of_ite {α : Type} {cond : Prop} [Decidable cond] {o : Option α} {a : α}
    (h : (if cond then none else o) = some a) : ¬ cond ∧ o = some a := by
  split at h
  · cases h
  · next hcond => exact ⟨hcond, h⟩

theorem rowsOk_remove (paths : List String) (h : RowsOk x s) : RowsOk x (paths.foldl Store.removeFile s) := by
  refine rowsOk_of_lookup h fun path row hrow => ?_
  rw [lookup_foldl_removeFile] at hrow
  exact (lookup_of_ite hrow).2

theorem rowsOk_removeStructural (paths : List String) (h : RowsOk x s) :
    RowsOk x (paths.foldl Store.removeStructuralFile s) := by
  refine rowsOk_of_lookup h fun path row hrow => ?_
  rw [lookup_foldl_removeStructuralFile] at hrow
  exact (lookup_of_ite hrow).2

theorem rowOk_parseSource {java : Finset (String × String)} {f : FileInfo} (hjava : f.language = .java ↔ IsJavaPath f.path) :
    RowOk x f.path (parseSource x reads java f).row where
  symbols _ := rfl
  derived _ := rfl
  boundaries _ hne := x.boundaries_of_ne_java _ _ _ _ hne
  java := hjava

theorem rowsOk_write {java : Finset (String × String)} {f : FileInfo} (hjava : f.language = .java ↔ IsJavaPath f.path)
    (h : RowsOk x s) : RowsOk x (writeOne s (parseSource x reads java f)) := by
  intro path row hrow
  change (s.files.insert f.path (parseSource x reads java f).row).lookup path = some row at hrow
  rw [lookup_insert] at hrow
  split at hrow
  · next hpath =>
    obtain rfl := Option.some_inj.mp hrow
    exact hpath ▸ rowOk_parseSource hjava
  · exact h path row hrow

theorem lookup_refreshedBoundaries (path : String) :
    (refreshedBoundaries x reads s).files.lookup path = (s.files.lookup path).map fun row =>
      if row.language = .java then
        { row with boundaries := x.boundaries path (reads.disk path) .java (javaContext reads s.javaPaths) }
      else row :=
  Table.lookup_mapRows _ _ _

theorem rowsOk_refresh (h : RowsOk x s) : RowsOk x (refreshedBoundaries x reads s) := by
  intro path row hrow
  rw [lookup_refreshedBoundaries] at hrow
  obtain ⟨old, hold, rfl⟩ := Option.map_eq_some_iff.mp hrow
  have hok := h path old hold
  split
  · next hjava => exact ⟨hok.symbols, hok.derived, fun _ hne => absurd hjava hne, hok.java⟩
  · exact hok

end Rows

section JavaPaths

theorem fileName_suffix (path : String) : Parser.fileName path <:+ path.toList := by
  rw [Parser.fileName]
  cases h : Lib.rsplitOnce '/' path.toList with
  | none => exact List.suffix_refl _
  | some r =>
    obtain ⟨a, b⟩ := r
    obtain ⟨hpath, -⟩ := Lib.rsplitOnce_eq_some h
    exact ⟨a ++ ['/'], by simp [hpath]⟩

theorem javaPath_suffix {path : String} (h : IsJavaPath path) : "java".toList <:+ path.toList := by
  unfold IsJavaPath Parser.extension at h
  split at h
  · cases h
  split at h
  · next stem ext hsplit =>
    split at h
    · cases h
    · obtain ⟨hname, -⟩ := Lib.rsplitOnce_eq_some hsplit
      have hext : ext = "java".toList := by
        have := congrArg String.toList (Option.some_inj.mp h)
        simpa using this
      refine List.IsSuffix.trans ⟨stem ++ ['.'], ?_⟩ (fileName_suffix path)
      rw [hname, hext]
      simp
  · cases h

/-- Header marks and the header filter leave Java files alone. -/
theorem not_header_of_java {path : String} (h : IsJavaPath path) : endsWith path ".h" = false := by
  rw [endsWith, ← Bool.not_eq_true, List.isSuffixOf_iff_suffix]
  intro hheader
  obtain ⟨a, ha⟩ := javaPath_suffix h
  obtain ⟨b, hb⟩ := hheader
  have hlast : (path.toList).getLast? = some 'a' := by rw [← ha]; simp
  have hlast' : (path.toList).getLast? = some 'h' := by rw [← hb]; simp
  rw [hlast] at hlast'
  cases hlast'

theorem isJava_iff (h : RowsOk x s) (path : String) :
    s.isJava path = true ↔ IsJavaPath path ∧ ∃ row, s.files.lookup path = some row := by
  rw [Store.isJava, decide_eq_true_eq, Store.language]
  constructor
  · intro hlang
    obtain ⟨row, hrow, hjava⟩ := Option.map_eq_some_iff.mp hlang
    exact ⟨(h path row hrow).java.mp hjava, row, hrow⟩
  · rintro ⟨hpath, row, hrow⟩
    rw [hrow, Option.map_some, (h path row hrow).java.mpr hpath]

/-- The rows of Java paths are the same. -/
def SameJava (s s' : Store ρ β φ ν) : Prop := ∀ path, IsJavaPath path → s'.files.lookup path = s.files.lookup path

theorem sameJava_headersMarked (s : Store ρ β φ ν) : SameJava s (headersMarked s) := by
  intro path hpath
  rw [headersMarked, lookup_markStale]
  simp only [not_header_of_java hpath, Bool.false_eq_true, ite_false, Option.map_id']

/-- The contents of the Java files of the index -/
def javaContents (s : Store ρ β φ ν) : Finset (String × String) :=
  ((s.files.rows.filter fun row => row.2.language = .java).map fun row => (row.1, row.2.contentHash)).toFinset

theorem mem_javaContents {path hash : String} : (path, hash) ∈ javaContents s ↔
    ∃ row, s.files.lookup path = some row ∧ row.language = .java ∧ row.contentHash = hash := by
  simp only [javaContents, List.mem_toFinset, List.mem_map, List.mem_filter, decide_eq_true_eq, Prod.exists,
    Prod.mk.injEq, Table.mem_rows]
  constructor
  · rintro ⟨p, row, ⟨hrow, hjava⟩, rfl, rfl⟩
    exact ⟨row, hrow, hjava, rfl⟩
  · rintro ⟨row, hrow, hjava, rfl⟩
    exact ⟨path, row, ⟨hrow, hjava⟩, rfl, rfl⟩

/-- If no Java row waits for a retry, the boundaries of each are derived from the Java files of the index. -/
def JavaOk (x : Extraction ρ β) (s : Store ρ β φ ν) : Prop :=
  (∀ path row, s.files.lookup path = some row → row.language = .java →
    row.interpretation = some STRUCTURAL_INTERPRETATION) →
  ∀ path row, s.files.lookup path = some row → row.language = .java →
    row.boundaries = x.boundaries path row.contentHash .java (javaContents s)

theorem javaContents_congr (h : RowsOk x s) (h' : RowsOk x s') (hsame : SameJava s s') :
    javaContents s' = javaContents s := by
  ext ⟨path, hash⟩
  simp only [mem_javaContents]
  constructor
  · rintro ⟨row, hrow, hjava, hhash⟩
    exact ⟨row, by rw [← hsame path ((h' path row hrow).java.mp hjava)]; exact hrow, hjava, hhash⟩
  · rintro ⟨row, hrow, hjava, hhash⟩
    exact ⟨row, by rw [hsame path ((h path row hrow).java.mp hjava)]; exact hrow, hjava, hhash⟩

theorem javaOk_congr (h : RowsOk x s) (h' : RowsOk x s') (hsame : SameJava s s') (hj : JavaOk x s) : JavaOk x s' := by
  intro hcurrent path row hrow hjava
  rw [javaContents_congr h h' hsame]
  have hpath := (h' path row hrow).java.mp hjava
  refine hj (fun p r hr hlang => ?_) path row (by rw [← hsame path hpath]; exact hrow) hjava
  refine hcurrent p r ?_ hlang
  rw [hsame p ((h p r hr).java.mp hlang)]
  exact hr

end JavaPaths

section Loop

/-- The files done by the loop over the batches: written, unless they failed. -/
structure Wrote (x : Extraction ρ β) (reads : Reads) (java : Finset (String × String)) (done : List FileInfo)
    (failed : List String) (s s' : Store ρ β φ ν) : Prop where
  other : ∀ path, (∀ f ∈ done, f.path ≠ path) → s'.files.lookup path = s.files.lookup path
  written : ∀ f ∈ done, f.path ∉ failed → s'.files.lookup f.path = some (parseSource x reads java f).row
  failed : ∀ path ∈ failed, ∃ f ∈ done, f.path = path ∧ (parseFails reads f = true ∨ reads.unwritable path = true)

namespace Wrote

variable {java : Finset (String × String)} {done done' : List FileInfo} {failed failed' : List String} {f : FileInfo}
  {s₁ : Store ρ β φ ν}

theorem nil : Wrote x reads java [] [] s s := ⟨fun _ _ => rfl, by simp, by simp⟩

theorem congr (h : Wrote x reads java done failed s s') (hdone : ∀ f, f ∈ done' ↔ f ∈ done)
    (hfailed : ∀ path, path ∈ failed' ↔ path ∈ failed) : Wrote x reads java done' failed' s s' where
  other path hpath := h.other path fun f hf => hpath f ((hdone f).mpr hf)
  written f hf hnot := h.written f ((hdone f).mp hf) fun hmem => hnot ((hfailed _).mpr hmem)
  failed path hpath := by
    obtain ⟨f, hf, hrest⟩ := h.failed path ((hfailed path).mp hpath)
    exact ⟨f, (hdone f).mpr hf, hrest⟩

theorem fail (h : Wrote x reads java done failed s s₁) (hfails : parseFails reads f = true ∨ reads.unwritable f.path = true) :
    Wrote x reads java (done ++ [f]) (failed ++ [f.path]) s s₁ where
  other path hpath := h.other path fun g hg => hpath g (List.mem_append_left _ hg)
  written g hg hnot := by
    rw [List.mem_append, List.mem_singleton, not_or] at hnot
    rcases List.mem_append.mp hg with hg | hg
    · exact h.written g hg hnot.1
    · rw [List.mem_singleton] at hg
      exact absurd (congrArg FileInfo.path hg) hnot.2
  failed path hpath := by
    rcases List.mem_append.mp hpath with hpath | hpath
    · obtain ⟨g, hg, hrest⟩ := h.failed path hpath
      exact ⟨g, List.mem_append_left _ hg, hrest⟩
    · rw [List.mem_singleton] at hpath
      subst hpath
      exact ⟨f, by simp, rfl, hfails⟩

theorem write (h : Wrote x reads java done failed s s₁) (hfresh : ∀ g ∈ done, g.path ≠ f.path) :
    Wrote x reads java (done ++ [f]) failed s (writeOne s₁ (parseSource x reads java f)) where
  other path hpath := by
    change (s₁.files.insert f.path _).lookup path = _
    rw [lookup_insert, if_neg fun heq => hpath f (by simp) heq.symm]
    exact h.other path fun g hg => hpath g (List.mem_append_left _ hg)
  written g hg hnot := by
    change (s₁.files.insert f.path _).lookup g.path = _
    rw [lookup_insert]
    rcases List.mem_append.mp hg with hg | hg
    · rw [if_neg (hfresh g hg)]
      exact h.written g hg hnot
    · rw [List.mem_singleton] at hg
      subst hg
      rw [if_pos rfl]
  failed path hpath := by
    obtain ⟨g, hg, hrest⟩ := h.failed path hpath
    exact ⟨g, List.mem_append_left _ hg, hrest⟩

end Wrote

section Batches

variable {java : Finset (String × String)} {done : List FileInfo} {failed : List String} {s₁ : Store ρ β φ ν}

theorem foldl_writeOne_wrote {files : List FileInfo} (h : Wrote x reads java done failed s s₁)
    (hunique : ((done ++ files).map (·.path)).Nodup) :
    Wrote x reads java (done ++ files) failed s ((files.map (parseSource x reads java)).foldl writeOne s₁) := by
  induction files generalizing done s₁ with
  | nil => simpa using h
  | cons f files ih =>
    have hfresh : ∀ g ∈ done, g.path ≠ f.path := by
      intro g hg heq
      rw [List.map_append, List.nodup_append] at hunique
      exact hunique.2.2 g.path (List.mem_map_of_mem hg) f.path (by simp) heq
    have hrest := ih (h.write hfresh) (by simpa using hunique)
    simpa using hrest

theorem foldl_writeEach_wrote {files : List FileInfo} {rejected : List String}
    (h : Wrote x reads java done (failed ++ rejected) s s₁) (hunique : ((done ++ files).map (·.path)).Nodup) :
    Ends (fold (writeEach reads) rejected (files.map (parseSource x reads java))) s₁
      (fun rejected' s' => Wrote x reads java (done ++ files) (failed ++ rejected') s s') (fun _ _ => True) := by
  induction files generalizing done s₁ rejected with
  | nil => exact Ends.pure (by simpa using h)
  | cons f files ih =>
    have hfresh : ∀ g ∈ done, g.path ≠ f.path := by
      intro g hg heq
      rw [List.map_append, List.nodup_append] at hunique
      exact hunique.2.2 g.path (List.mem_map_of_mem hg) f.path (by simp) heq
    refine Ends.bind (Q := fun rejected' s' => Wrote x reads java (done ++ [f]) (failed ++ rejected') s s') ?_ ?_
    · rw [writeEach]
      split
      · next hunwritable =>
        refine Ends.pure ?_
        rw [← List.append_assoc]
        exact h.fail (.inr hunwritable)
      · exact Ends.bind (Ends.commit (Q := fun _ s' => s' = _) rfl fun _ => trivial) fun _ s' hs' =>
          Ends.pure (hs' ▸ h.write hfresh)
    · intro rejected' s' h'
      refine (ih h' (by simpa using hunique)).mono (fun _ _ hq => ?_) fun _ _ he => he
      simpa using hq

theorem fails_wrote {files : List FileInfo} (h : Wrote x reads java done failed s s₁)
    (hfails : ∀ f ∈ files, parseFails reads f = true) :
    Wrote x reads java (done ++ files) (failed ++ files.map (·.path)) s s₁ := by
  induction files generalizing done failed with
  | nil => simpa using h
  | cons f files ih =>
    have hrest := ih (h.fail (.inl (hfails f List.mem_cons_self))) fun g hg => hfails g (List.mem_cons_of_mem _ hg)
    simpa using hrest

theorem indexBatch_wrote {batch : List FileInfo} {acc : List String × Nat} (h : Wrote x reads java done acc.1 s s₁)
    (hunique : ((done ++ batch).map (·.path)).Nodup) : Ends (indexBatch x reads java acc batch) s₁
      (fun acc' s' => Wrote x reads java (done ++ batch) acc'.1 s s') (fun _ _ => True) := by
  -- the failed files of the batch first, then the parsed ones
  let bad := batch.filter (parseFails reads)
  let good := batch.filter fun f => !parseFails reads f
  have hsplit : ∀ f, f ∈ done ++ batch ↔ f ∈ done ++ bad ++ good := by
    intro f
    simp only [bad, good, List.mem_append, List.mem_filter, Bool.not_eq_true']
    cases parseFails reads f <;> simp
  have hperm : (bad ++ good).Perm batch := by
    simpa [bad, good] using List.filter_append_perm (parseFails reads) batch
  have hunique' : ((done ++ bad ++ good).map (·.path)).Nodup := by
    rw [List.append_assoc]
    exact (((List.Perm.append_left done hperm).map _).nodup_iff).mpr hunique
  have hbad : Wrote x reads java (done ++ bad) (acc.1 ++ bad.map (·.path)) s s₁ :=
    fails_wrote h fun f hf => (List.mem_filter.mp hf).2
  have hwrite : Ends (writeParsedBatch reads acc.2 (good.map (parseSource x reads java))) s₁
      (fun rejected s' => Wrote x reads java (done ++ bad ++ good) (acc.1 ++ bad.map (·.path) ++ rejected) s s')
      (fun _ _ => True) := by
    rw [writeParsedBatch]
    split
    · next hempty =>
      rw [List.isEmpty_iff, List.map_eq_nil_iff] at hempty
      exact Ends.pure (by simpa [hempty] using hbad)
    split
    · exact foldl_writeEach_wrote (by simpa using hbad) hunique'
    · refine Ends.bind (Ends.commit (Q := fun _ s' => s' = _) rfl fun _ => trivial) fun _ s' hs' => ?_
      subst hs'
      exact Ends.pure (by simpa using foldl_writeOne_wrote hbad hunique')
  refine Ends.bind hwrite fun rejected s' h' => Ends.pure ?_
  exact h'.congr hsplit fun _ => Iff.rfl

theorem indexBatches_wrote {toParse : List FileInfo} (hunique : (toParse.map (·.path)).Nodup) :
    Ends (indexBatches x reads java toParse) s (fun failed s' => Wrote x reads java toParse failed s s')
      (fun _ _ => True) := by
  have hslices := slices_flatten STRUCTURAL_INDEX_BATCH_SIZE toParse
  refine Ends.bind (Ends.fold (I := fun done acc s' => Wrote x reads java done.flatten acc.1 s s') Wrote.nil ?_)
    fun acc s' h => Ends.pure (hslices ▸ h)
  intro done batch rest acc s' hxs h
  have hdone : ((done.flatten ++ batch).map (·.path)).Nodup := by
    rw [hxs] at hslices
    rw [← hslices] at hunique
    refine hunique.sublist (List.Sublist.map _ ?_)
    simp only [List.flatten_append, List.flatten_cons, ← List.append_assoc]
    exact List.sublist_append_left _ _
  refine (indexBatch_wrote h hdone).mono (fun _ _ hq => ?_) fun _ _ he => he
  simpa using hq

end Batches

end Loop

section Finish

variable {report : DiscoveryReport} {strategy : IndexStrategy} {before : Store ρ β φ ν}

/-- The files of the selection a pass may parse: no header while a header or C++ file is unavailable. -/
def parseable (before : Store ρ β φ ν) (report : DiscoveryReport) (strategy : IndexStrategy) : List FileInfo :=
  if report.failedPaths.any isHeaderContextPath then
    (filesToParse before report strategy).filter fun f => !endsWith f.path ".h"
  else filesToParse before report strategy

def headerChecked (s : Store ρ β φ ν) (report : DiscoveryReport) : Store ρ β φ ν :=
  if headerContextChanged s.fileInfos report then headersMarked s else s

def javaPathsOf (report : DiscoveryReport) : List String := (report.files.filter fun f => f.language = .java).map (·.path)

/-- Either the Java files are parsed under the context of the report, or all of them wait for a retry. -/
def ContextChosen (reads : Reads) (report : DiscoveryReport) (unavailable : Bool) (toParse : List FileInfo)
    (s : Store ρ β φ ν) (context : Finset (String × String) × List FileInfo × List String) (s' : Store ρ β φ ν) : Prop :=
  (s' = s ∧ context.2.1 = toParse ∧ context.2.2 = [] ∧ unavailable = false ∧
    (toParse.any (·.language = .java) = true → context.1 = javaContext reads (javaPathsOf report))) ∨
  (s' = javaMarked s ∧ context.2.1 = toParse.filter (·.language ≠ .java) ∧
    context.2.2 = (toParse.filter (·.language = .java)).map (·.path) ∧
    (toParse.any (·.language = .java) = true ∨ unavailable = true) ∧ (unavailable || reads.contextFails) = true)

theorem chooseJavaContext_spec {unavailable : Bool} {toParse : List FileInfo} :
    Ends (chooseJavaContext reads (javaPathsOf report) unavailable toParse) s
      (fun context s' => ContextChosen reads report unavailable toParse s context s') (fun _ _ => True) := by
  rw [chooseJavaContext]
  split
  · next hcond =>
    rw [Bool.or_eq_true] at hcond
    split
    · next hfails =>
      refine Ends.bind (Ends.commit (Q := fun _ s' => s' = javaMarked s) rfl fun _ => trivial) fun _ s' hs' => ?_
      exact Ends.pure (.inr ⟨hs', rfl, rfl, hcond, hfails⟩)
    · next hfine =>
      rw [Bool.or_eq_true, not_or, Bool.not_eq_true] at hfine
      exact Ends.pure (.inl ⟨rfl, rfl, rfl, hfine.1, fun _ => rfl⟩)
  · next hcond =>
    rw [Bool.or_eq_true, not_or, Bool.not_eq_true, Bool.not_eq_true] at hcond
    refine Ends.pure (.inl ⟨rfl, rfl, rfl, hcond.2, fun hjava => ?_⟩)
    rw [hcond.1] at hjava
    cases hjava

def purged (strategy : IndexStrategy) (failed : List String) (s : Store ρ β φ ν) : Store ρ β φ ν :=
  if strategy = .full && !failed.isEmpty then failed.foldl Store.removeStructuralFile s else s

def finallyChecked (failed : List String) (s : Store ρ β φ ν) : Store ρ β φ ν :=
  if failed.any isHeaderContextPath then headersMarked s else s

/-- What a pass that was not cut off did to the index: the orphans went, the context was chosen, the batches
were written, failures were purged and marked. -/
structure Finished (x : Extraction ρ β) (reads : Reads) (report : DiscoveryReport) (strategy : IndexStrategy)
    (before : Store ρ β φ ν) (context : Finset (String × String) × List FileInfo × List String) (failed : List String)
    (s₁ s₂ : Store ρ β φ ν) (allFailed : List String) (s' : Store ρ β φ ν) : Prop where
  chosen : ContextChosen reads report (unavailableJavaSource before report) (parseable before report strategy)
    ((orphansOf before report).foldl Store.removeFile before) context s₁
  wrote : Wrote x reads context.1 context.2.1 failed s₁ s₂
  state : s' = finallyChecked allFailed (purged strategy failed s₂)
  all : ∀ path, path ∈ allFailed ↔ path ∈ failed ∨ path ∈ report.failedPaths ∨ path ∈ context.2.2 ∨
    ∃ f ∈ filesToParse before report strategy, f.path = path ∧ f ∉ parseable before report strategy

theorem mem_parseable {f : FileInfo} (hf : f ∈ parseable before report strategy) :
    f ∈ filesToParse before report strategy := by
  unfold parseable at hf
  split at hf
  · exact List.mem_of_mem_filter hf
  · exact hf

theorem filesToParse_sub {f : FileInfo} (hf : f ∈ filesToParse before report strategy) : f ∈ report.files := by
  cases strategy with
  | full => exact hf
  | incremental => exact List.mem_of_mem_filter hf

theorem filesToParse_sublist : (filesToParse before report strategy).Sublist report.files := by
  cases strategy with
  | full => exact List.Sublist.refl _
  | incremental => exact List.filter_sublist

theorem parseable_sublist : (parseable before report strategy).Sublist report.files := by
  unfold parseable
  split
  · exact List.filter_sublist.trans filesToParse_sublist
  · exact filesToParse_sublist

/-- The headers held back while a header or C++ file is unavailable. -/
theorem mem_held {path : String} :
    path ∈ (if report.failedPaths.any isHeaderContextPath then
      (filesToParse before report strategy).filter fun f => endsWith f.path ".h" else []).map (·.path) ↔
    ∃ f ∈ filesToParse before report strategy, f.path = path ∧ f ∉ parseable before report strategy := by
  unfold parseable
  split
  · simp only [List.mem_map, List.mem_filter, Bool.not_eq_true']
    constructor
    · rintro ⟨f, ⟨hf, hh⟩, rfl⟩
      exact ⟨f, hf, rfl, fun hnot => by rw [hh] at hnot; exact absurd hnot.2 (by decide)⟩
    · rintro ⟨f, hf, rfl, hnot⟩
      refine ⟨f, ⟨hf, ?_⟩, rfl⟩
      by_contra hh
      exact hnot ⟨hf, by simpa using hh⟩
  · simp only [List.map_nil, List.not_mem_nil, false_iff, not_exists, not_and, not_not]
    exact fun f hf _ => hf

theorem indexSelected_spec (hunique : (report.files.map (·.path)).Nodup) :
    Ends (indexSelected x reads report strategy before) ((orphansOf before report).foldl Store.removeFile before)
      (fun allFailed s' => ∃ context failed s₁ s₂,
        Finished x reads report strategy before context failed s₁ s₂ allFailed s') (fun _ _ => True) := by
  dsimp only [indexSelected]
  rw [show (if report.failedPaths.any isHeaderContextPath = true then
    (filesToParse before report strategy).filter fun f => !endsWith f.path ".h"
    else filesToParse before report strategy) = parseable before report strategy from rfl]
  refine Ends.bind chooseJavaContext_spec fun context s₁ hchosen => ?_
  have hsub : context.2.1.Sublist report.files := by
    rcases hchosen with ⟨-, hparse, -⟩ | ⟨-, hparse, -⟩
    · rw [hparse]
      exact parseable_sublist
    · rw [hparse]
      exact List.filter_sublist.trans parseable_sublist
  refine Ends.bind (indexBatches_wrote (hunique.sublist (hsub.map _))) fun failed s₂ hwrote => ?_
  refine Ends.bind (Q := fun _ s' => s' = purged strategy failed s₂) ?_ fun _ s₃ hs₃ => ?_
  · refine Ends.whenever (fun hcond => Ends.commit ?_ fun _ => trivial) fun hcond => ?_
    · rw [purged, if_pos hcond]
    · rw [purged, if_neg (by rw [hcond]; exact Bool.false_ne_true)]
  subst hs₃
  generalize hall : failed ++ report.failedPaths ++ (if report.failedPaths.any isHeaderContextPath = true then
    (filesToParse before report strategy).filter fun f => endsWith f.path ".h" else []).map (·.path) ++
    context.2.2 = allFailed
  refine Ends.bind (Q := fun _ s' => s' = finallyChecked allFailed (purged strategy failed s₂)) ?_ fun _ s₄ hs₄ => ?_
  · refine Ends.whenever (fun hcond => Ends.commit ?_ fun _ => trivial) fun hcond => ?_
    · rw [finallyChecked, if_pos hcond]
    · rw [finallyChecked, if_neg (by rw [hcond]; exact Bool.false_ne_true)]
  refine Ends.pure ⟨context, failed, s₁, s₂, hchosen, hwrote, hs₄, fun path => ?_⟩
  rw [← hall]
  simp only [List.mem_append, mem_held, or_assoc]
  exact or_congr_right (or_congr_right or_comm)

theorem removeOrphans_spec {orphans : List String} :
    Ends (removeOrphans orphans) s (fun _ s' => s' = orphans.foldl Store.removeFile s) (fun _ _ => True) := by
  refine Ends.whenever (fun _ => Ends.commit rfl fun _ => trivial) fun hempty => ?_
  rw [Bool.not_eq_false', List.isEmpty_iff] at hempty
  rw [hempty, List.foldl_nil]

theorem indexDiscoveryReport_spec (hunique : (report.files.map (·.path)).Nodup) :
    Ends (indexDiscoveryReport x reads report strategy) s (fun allFailed s' => ∃ context failed s₁ s₂,
      Finished x reads report strategy (headerChecked s report) context failed s₁ s₂ allFailed s') (fun _ _ => True) := by
  refine Ends.state (Ends.bind (Q := fun _ s' => s' = headerChecked s report) ?_ ?_)
  · refine Ends.whenever (fun hcond => Ends.commit ?_ fun _ => trivial) fun hcond => ?_
    · rw [headerChecked, if_pos hcond]
    · rw [headerChecked, if_neg (by rw [hcond]; exact Bool.false_ne_true)]
  rintro _ _ rfl
  refine Ends.state (Ends.bind removeOrphans_spec ?_)
  rintro _ _ rfl
  exact indexSelected_spec hunique

end Finish

section Settle

variable {report : DiscoveryReport} {strategy : IndexStrategy} {before : Store ρ β φ ν}
  {context : Finset (String × String) × List FileInfo × List String} {failed allFailed : List String}
  {s₁ s₂ : Store ρ β φ ν}

/-- The row a full pass writes for a file of the report. -/
def settledRow (x : Extraction ρ β) (reads : Reads) (report : DiscoveryReport) (f : FileInfo) : FileRow ρ β :=
  (parseSource x reads (javaContext reads (javaPathsOf report)) f).row

/-- Exactly the rows of the files of the report. -/
structure Settled (x : Extraction ρ β) (reads : Reads) (report : DiscoveryReport) (s : Store ρ β φ ν) : Prop where
  row : ∀ f ∈ report.files, s.files.lookup f.path = some (settledRow x reads report f)
  none : ∀ path, (∀ f ∈ report.files, f.path ≠ path) → s.files.lookup path = none

/-- The contents of the report are those on disk. -/
def Accurate (reads : Reads) (report : DiscoveryReport) : Prop := ∀ f ∈ report.files, reads.disk f.path = f.contentHash

theorem parseSource_row_congr {java java' : Finset (String × String)} {f : FileInfo}
    (h : f.language = .java → java = java') :
    (parseSource x reads java f).row = (parseSource x reads java' f).row := by
  by_cases hjava : f.language = .java
  · rw [h hjava]
  · simp only [parseSource, x.boundaries_of_ne_java _ _ _ java hjava, x.boundaries_of_ne_java _ _ _ java' hjava]

theorem mem_orphansOf {path : String} : path ∈ orphansOf before report ↔
    (∃ row, before.files.lookup path = some row) ∧ path ∉ discoveredPaths report := by
  rw [orphansOf, List.mem_filter, decide_eq_true_eq, ← AList.mem_keys, mem_iff_lookup, Option.ne_none_iff_exists']

theorem lookup_without_orphans {path : String} (hpath : path ∈ discoveredPaths report) :
    ((orphansOf before report).foldl Store.removeFile before).files.lookup path = before.files.lookup path := by
  rw [lookup_foldl_removeFile, if_neg fun horphan => (mem_orphansOf.mp horphan).2 hpath]

theorem eq_of_path {files : List FileInfo} (hunique : (files.map (·.path)).Nodup) {f g : FileInfo} (hf : f ∈ files)
    (hg : g ∈ files) (hpath : f.path = g.path) : f = g := List.inj_on_of_nodup_map hunique hf hg hpath

/-- After a pass without failures a file of the report has the row of a full pass, or the one it had if it was
skipped; other paths have none. -/
theorem Finished.rows (h : Finished x reads report strategy before context failed s₁ s₂ allFailed s')
    (hdetected : Detected report.files) (hnone : allFailed = []) :
    (∀ f ∈ report.files, s'.files.lookup f.path = if f ∈ filesToParse before report strategy then
      some (settledRow x reads report f) else before.files.lookup f.path) ∧
    ∀ path, (∀ f ∈ report.files, f.path ≠ path) → s'.files.lookup path = none := by
  have hno : ∀ path, ¬ (path ∈ failed ∨ path ∈ report.failedPaths ∨ path ∈ context.2.2 ∨
      ∃ f ∈ filesToParse before report strategy, f.path = path ∧ f ∉ parseable before report strategy) := by
    intro path hpath
    rw [← h.all, hnone] at hpath
    cases hpath
  have hfailed : failed = [] := List.eq_nil_iff_forall_not_mem.mpr fun path hpath => hno path (.inl hpath)
  have hreport : report.failedPaths = [] :=
    List.eq_nil_iff_forall_not_mem.mpr fun path hpath => hno path (.inr (.inl hpath))
  have hparse : parseable before report strategy = filesToParse before report strategy := by
    rw [parseable, hreport]
    rfl
  have hstate : s' = s₂ := by
    rw [h.state, hnone, hfailed, finallyChecked, purged]
    simp
  have hchosen : s₁ = (orphansOf before report).foldl Store.removeFile before ∧
      context.2.1 = filesToParse before report strategy ∧
      ((filesToParse before report strategy).any (·.language = .java) = true →
        context.1 = javaContext reads (javaPathsOf report)) := by
    rcases h.chosen with ⟨hs, hc, -, -, hjava⟩ | ⟨-, -, hheld, hcond, -⟩
    · rw [hparse] at hc hjava
      exact ⟨hs, hc, hjava⟩
    · rcases hcond with hany | hunavailable
      · obtain ⟨f, hf, hlang⟩ := List.any_eq_true.mp hany
        refine absurd (.inr (.inr (.inl ?_))) (hno f.path)
        rw [hheld]
        exact List.mem_map.mpr ⟨f, List.mem_filter.mpr ⟨hf, hlang⟩, rfl⟩
      · rw [unavailableJavaSource, hreport] at hunavailable
        cases hunavailable
  obtain ⟨hs₁, hfiles, hjava⟩ := hchosen
  have hwrote := h.wrote
  rw [hfiles, hfailed, hs₁] at hwrote
  have hdiscovered : ∀ path, path ∈ discoveredPaths report ↔ ∃ f ∈ report.files, f.path = path := by
    intro path
    rw [discoveredPaths, hreport, List.append_nil, List.mem_map]
  rw [hstate]
  constructor
  · intro f hf
    by_cases hsel : f ∈ filesToParse before report strategy
    · rw [if_pos hsel, hwrote.written f hsel (by simp), settledRow]
      refine congrArg some (parseSource_row_congr fun hlang => hjava ?_)
      exact List.any_eq_true.mpr ⟨f, hsel, decide_eq_true hlang⟩
    · rw [if_neg hsel, hwrote.other f.path, lookup_without_orphans ((hdiscovered _).mpr ⟨f, hf, rfl⟩)]
      · intro g hg hpath
        exact hsel (eq_of_path hdetected.unique (filesToParse_sub hg) hf hpath ▸ hg)
  · intro path hpath
    rw [hwrote.other path fun g hg => hpath g (filesToParse_sub hg), lookup_foldl_removeFile]
    split
    · rfl
    · next horphan =>
      by_contra hrow
      refine horphan (mem_orphansOf.mpr ⟨Option.ne_none_iff_exists'.mp hrow, fun hmem => ?_⟩)
      obtain ⟨f, hf, hfpath⟩ := (hdiscovered path).mp hmem
      exact hpath f hf hfpath

/-- A pass without failures settles the rows, if the files it skipped were settled. -/
theorem Finished.settled (h : Finished x reads report strategy before context failed s₁ s₂ allFailed s')
    (hdetected : Detected report.files) (hnone : allFailed = [])
    (hskip : ∀ f ∈ report.files, f ∉ filesToParse before report strategy →
      before.files.lookup f.path = some (settledRow x reads report f)) : Settled x reads report s' := by
  obtain ⟨hrow, hother⟩ := h.rows hdetected hnone
  refine ⟨fun f hf => ?_, hother⟩
  rw [hrow f hf]
  split
  · rfl
  · next hsel => exact hskip f hf hsel

/-- A stored row of the same hash and language under the current interpretation. -/
theorem row_of_not_differs {f : FileInfo} (h : differs before f = false) : ∃ row, before.files.lookup f.path = some row ∧
    row.contentHash = f.contentHash ∧ row.language = f.language ∧
    row.interpretation = some STRUCTURAL_INTERPRETATION := by
  rw [differs, Bool.or_eq_false_iff, Bool.or_eq_false_iff, decide_eq_false_iff_not, decide_eq_false_iff_not,
    decide_eq_false_iff_not, not_not, not_not, not_not] at h
  obtain ⟨⟨hhash, hlang⟩, hinterp⟩ := h
  obtain ⟨row, hrow, hhash⟩ := Option.map_eq_some_iff.mp hhash
  rw [Store.language, hrow, Option.map_some, Option.some_inj] at hlang
  rw [hrow, Option.bind_some] at hinterp
  exact ⟨row, hrow, hhash, hlang, hinterp⟩

theorem not_differs_of_unchanged (hunchanged : javaChanged before report = false) {f : FileInfo}
    (hf : f ∈ report.files) (hlang : f.language = .java) : differs before f = false := by
  rw [javaChanged, Bool.or_eq_false_iff, Bool.or_eq_false_iff] at hunchanged
  simpa [hlang] using List.any_eq_false.mp hunchanged.1.2 f hf

/-- No Java file changed: every Java row of the index is the row of a file of the report. -/
theorem javaRow_of_unchanged (hrows : RowsOk x before) (hdetected : Detected report.files)
    (hreport : report.failedPaths = []) (hunchanged : javaChanged before report = false) {path : String}
    {row : FileRow ρ β} (hrow : before.files.lookup path = some row) (hjava : row.language = .java) :
    ∃ f ∈ report.files, f.path = path ∧ f.language = .java ∧ differs before f = false := by
  have hpath : IsJavaPath path := (hrows path row hrow).java.mp hjava
  have hdiscovered : path ∈ discoveredPaths report := by
    by_contra hnot
    have hnoOrphan := (Bool.or_eq_false_iff.mp hunchanged).2
    have horphan := List.any_eq_false.mp hnoOrphan path (mem_orphansOf.mpr ⟨⟨row, hrow⟩, hnot⟩)
    exact horphan ((isJava_iff hrows path).mpr ⟨hpath, row, hrow⟩)
  rw [discoveredPaths, hreport, List.append_nil, List.mem_map] at hdiscovered
  obtain ⟨f, hf, rfl⟩ := hdiscovered
  have hlang := (hdetected.java hf).mpr hpath
  exact ⟨f, hf, rfl, hlang, not_differs_of_unchanged hunchanged hf hlang⟩

theorem javaContents_of_unchanged (hrows : RowsOk x before) (hdetected : Detected report.files)
    (haccurate : Accurate reads report) (hreport : report.failedPaths = [])
    (hunchanged : javaChanged before report = false) :
    javaContents before = javaContext reads (javaPathsOf report) := by
  ext ⟨path, hash⟩
  rw [mem_javaContents]
  simp only [javaContext, javaPathsOf, List.mem_toFinset, List.mem_map, List.mem_filter, decide_eq_true_eq,
    Prod.mk.injEq]
  constructor
  · rintro ⟨row, hrow, hjava, rfl⟩
    obtain ⟨f, hf, rfl, hlang, hsame⟩ := javaRow_of_unchanged hrows hdetected hreport hunchanged hrow hjava
    obtain ⟨row', hrow', hhash, -⟩ := row_of_not_differs hsame
    obtain rfl := Option.some_inj.mp (hrow.symm.trans hrow')
    exact ⟨f.path, ⟨f, ⟨hf, hlang⟩, rfl⟩, rfl, by rw [haccurate f hf, hhash]⟩
  · rintro ⟨_, ⟨f, ⟨hf, hlang⟩, rfl⟩, rfl, rfl⟩
    obtain ⟨row, hrow, hhash, hlang', -⟩ := row_of_not_differs (not_differs_of_unchanged hunchanged hf hlang)
    exact ⟨row, hrow, hlang'.trans hlang, hhash.trans (haccurate f hf).symm⟩

/-- A file the incremental pass skips is settled. -/
theorem skipped_settled (hrows : RowsOk x before) (hjava : JavaOk x before) (hdetected : Detected report.files)
    (haccurate : Accurate reads report) (hreport : report.failedPaths = []) {f : FileInfo} (hf : f ∈ report.files)
    (hskip : f ∉ filesToParse before report .incremental) :
    before.files.lookup f.path = some (settledRow x reads report f) := by
  have hskip' : (differs before f || (f.language = .java && javaChanged before report)) = false := by
    rw [← Bool.not_eq_true]
    exact fun hsel => hskip (List.mem_filter.mpr ⟨hf, hsel⟩)
  rw [Bool.or_eq_false_iff] at hskip'
  obtain ⟨row, hrow, hhash, hlang, hcurrent⟩ := row_of_not_differs hskip'.1
  have hok := hrows f.path row hrow
  have hboundaries : row.boundaries = x.boundaries f.path f.contentHash f.language (javaContext reads (javaPathsOf report)) := by
    by_cases hj : f.language = .java
    · have hunchanged : javaChanged before report = false := by simpa [hj] using hskip'.2
      rw [← javaContents_of_unchanged hrows hdetected haccurate hreport hunchanged, ← hhash, hj]
      refine hjava (fun p r hr hr' => ?_) f.path row hrow (hlang.trans hj)
      obtain ⟨g, -, rfl, -, hsame⟩ := javaRow_of_unchanged hrows hdetected hreport hunchanged hr hr'
      obtain ⟨r', hrow', -, -, hcur⟩ := row_of_not_differs hsame
      obtain rfl := Option.some_inj.mp (hr.symm.trans hrow')
      exact hcur
    · rw [hok.boundaries hcurrent (hlang ▸ hj), hhash, hlang, ← x.boundaries_of_ne_java _ _ _ _ hj]
  rw [hrow]
  refine congrArg some ?_
  have hsymbols := hok.symbols hcurrent
  have hderived := hok.derived hcurrent
  rw [hhash, hlang] at hsymbols hderived
  obtain ⟨contentHash, language, interpretation, symbols, derived, boundaries⟩ := row
  cases hhash
  cases hlang
  cases hcurrent
  cases hsymbols
  cases hderived
  cases hboundaries
  simp only [settledRow, parseSource, haccurate f hf]

end Settle

end Graph
end CodeSage
