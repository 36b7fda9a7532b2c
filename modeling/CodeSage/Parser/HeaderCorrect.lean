import Mathlib.Data.Finset.Lattice.Basic
import CodeSage.Parser.Header

/-!
# CodeSage.Parser.HeaderCorrect

The dialect of a header as a property of the file list (`IsCpp`): it lies beside a C++ file, a C++ file
includes it, or it does not read as C. The scan stops early and skips reused headers; it decides every header
that waits (`Scanned`). Equal evidence gives equal dialects, so that prior decisions may stand.
-/

namespace CodeSage
namespace Parser

open Lib

variable {contents : Contents} {files previous : List FileInfo} {headers headers' : List String} {h : String}

section Resolve

theorem getHeader_mem {path : Option String} (hget : getHeader headers path = some h) : h ∈ headers := by
  obtain ⟨p, -, hfind⟩ := Option.bind_eq_some_iff.mp hget
  exact List.mem_of_find?_eq_some hfind

theorem uniqueSuffix_mem {suffix : String} (hunique : uniqueSuffix headers suffix = some h) : h ∈ headers := by
  unfold uniqueSuffix at hunique
  split at hunique
  · next header hfilter =>
    obtain rfl := Option.some_inj.mp hunique
    exact List.mem_of_mem_filter (hfilter ▸ List.mem_singleton_self header)
  · cases hunique

/-- An include resolves to a header of the project. -/
theorem resolveInclude_mem {dir : List Component} {path : String} {quoted : Bool}
    (hresolve : resolveInclude dir path quoted headers = some h) : h ∈ headers := by
  rcases Option.or_eq_some_iff.mp hresolve with hbeside | ⟨-, hfar⟩
  · split at hbeside
    · exact getHeader_mem hbeside
    · cases hbeside
  · obtain ⟨normalized, -, hfar⟩ := Option.bind_eq_some_iff.mp hfar
    rcases Option.or_eq_some_iff.mp hfar with hget | ⟨-, hunique⟩
    · exact getHeader_mem hget
    · exact uniqueSuffix_mem hunique

theorem getHeader_perm (hperm : headers.Perm headers') (path : Option String) :
    getHeader headers path = getHeader headers' path := by
  cases path with
  | none => rfl
  | some p =>
    have hfind : ∀ hs : List String, hs.find? (· = p) = if p ∈ hs then some p else none := by
      intro hs
      split
      · next hmem =>
        obtain ⟨a, ha⟩ : ∃ a, hs.find? (· = p) = some a := by
          rw [← Option.isSome_iff_exists, List.find?_isSome]
          exact ⟨p, hmem, decide_eq_true rfl⟩
        have hap : a = p := by simpa using List.find?_some ha
        rw [ha, hap]
      · next hnot =>
        refine List.find?_eq_none.mpr fun a ha hap => hnot ?_
        exact of_decide_eq_true hap ▸ ha
    rw [getHeader, getHeader, Option.bind_some, Option.bind_some, hfind, hfind]
    by_cases hmem : p ∈ headers
    · rw [if_pos hmem, if_pos (hperm.mem_iff.mp hmem)]
    · rw [if_neg hmem, if_neg (mt hperm.mem_iff.mpr hmem)]

theorem uniqueSuffix_perm (hperm : headers.Perm headers') (suffix : String) :
    uniqueSuffix headers suffix = uniqueSuffix headers' suffix := by
  have hfilter := hperm.filter (endsWith · suffix)
  unfold uniqueSuffix
  cases hlist : headers.filter (endsWith · suffix) with
  | nil =>
    rw [hlist] at hfilter
    rw [hfilter.symm.eq_nil]
  | cons a rest =>
    rw [hlist] at hfilter
    cases rest with
    | nil => rw [List.perm_singleton.mp hfilter.symm]
    | cons b rest =>
      have hlength := hfilter.length_eq
      match hlist' : headers'.filter (endsWith · suffix) with
      | [] => rfl
      | [c] =>
        rw [hlist'] at hlength
        simp at hlength
      | _ :: _ :: _ => rfl

/-- The order of the headers does not matter. -/
theorem resolveInclude_perm (hperm : headers.Perm headers') (dir : List Component) (path : String) (quoted : Bool) :
    resolveInclude dir path quoted headers = resolveInclude dir path quoted headers' := by
  simp only [resolveInclude, getHeader_perm hperm, uniqueSuffix_perm hperm]

end Resolve

section Dialect

/-- A C++ file of the list includes the header. -/
def IncludedBy (contents : Contents) (headers : List String) (sources : List FileInfo) (h : String) : Prop :=
  ∃ f ∈ sources, contents.indexable f.contentHash = true ∧ ∃ target ∈ contents.includes f.contentHash,
    resolveInclude ((parent f.path).getD []) target.1 target.2 headers = some h

/-- The header has this content. -/
def HasContent (files : List FileInfo) (h hash : String) : Prop :=
  ∃ f ∈ files, isHeader f = true ∧ f.path = h ∧ f.contentHash = hash

/-- The project has C++ files, and the header does not read as C. -/
def ReadsAsCpp (contents : Contents) (files : List FileInfo) (h : String) : Prop :=
  cppSources files ≠ [] ∧ ∃ hash, HasContent files h hash ∧ contents.indexable hash = true ∧ contents.prefersC hash = false

/-- The header is C++. -/
def IsCpp (contents : Contents) (files : List FileInfo) (h : String) : Prop :=
  h ∈ siblings files ∨ IncludedBy contents (headerPaths files) (cppSources files) h ∨ ReadsAsCpp contents files h

theorem mem_headerPaths : h ∈ headerPaths files ↔ ∃ f ∈ files, isHeader f = true ∧ f.path = h := by
  rw [headerPaths, List.mem_dedup, List.mem_map]
  simp only [List.mem_filter, and_assoc]

theorem IncludedBy.header {sources : List FileInfo} (hin : IncludedBy contents headers sources h) : h ∈ headers := by
  obtain ⟨f, -, -, target, -, hresolve⟩ := hin
  exact resolveInclude_mem hresolve

theorem IsCpp.header (hcpp : IsCpp contents files h) : h ∈ headerPaths files := by
  rcases hcpp with hsibling | hin | ⟨-, hash, ⟨f, hf, hheader, hpath, -⟩, -⟩
  · exact List.mem_of_mem_filter hsibling
  · exact hin.header
  · exact mem_headerPaths.mpr ⟨f, hf, hheader, hpath⟩

end Dialect

section Scan

variable {cpp pending : Finset String} {acc : Finset String × Finset String}

theorem foldl_scanInclude (headers : List String) (dir : List Component) (targets : List (String × Bool))
    (acc : Finset String × Finset String) (h : String) :
    (h ∈ (targets.foldl (scanInclude headers dir) acc).1 ↔
      h ∈ acc.1 ∨ ∃ target ∈ targets, resolveInclude dir target.1 target.2 headers = some h) ∧
    (h ∈ (targets.foldl (scanInclude headers dir) acc).2 ↔
      h ∈ acc.2 ∧ ¬ ∃ target ∈ targets, resolveInclude dir target.1 target.2 headers = some h) := by
  induction targets generalizing acc with
  | nil => simp
  | cons target targets ih =>
    obtain ⟨ih₁, ih₂⟩ := ih (scanInclude headers dir acc target)
    rw [List.foldl_cons, ih₁, ih₂, scanInclude]
    cases hresolve : resolveInclude dir target.1 target.2 headers with
    | none => simp [hresolve]
    | some header =>
      simp only [Finset.mem_insert, Finset.mem_erase, List.mem_cons, exists_eq_or_imp, hresolve, Option.some_inj]
      constructor
      · rw [or_assoc, or_left_comm, eq_comm]
      · rw [not_or, ne_eq, and_assoc, and_left_comm, eq_comm]

/-- What the scan has done: every header that waited and is included has been decided. -/
structure Scanned (contents : Contents) (headers : List String) (cpp pending : Finset String) (done : List FileInfo)
    (acc : Finset String × Finset String) : Prop where
  keeps : ∀ h ∈ cpp, h ∈ acc.1
  sound : ∀ h ∈ acc.1, h ∈ cpp ∨ IncludedBy contents headers done h
  waits : ∀ h, h ∈ acc.2 ↔ h ∈ pending ∧ h ∉ acc.1
  complete : ∀ h ∈ pending, IncludedBy contents headers done h → h ∈ acc.1

theorem Scanned.start (hdisjoint : ∀ h ∈ pending, h ∉ cpp) : Scanned contents headers cpp pending [] (cpp, pending) where
  keeps _ hh := hh
  sound _ hh := .inl hh
  waits h := ⟨fun hh => ⟨hh, hdisjoint h hh⟩, And.left⟩
  complete h _ hin := by
    obtain ⟨f, hf, -⟩ := hin
    cases hf

theorem includedBy_append {done : List FileInfo} {f : FileInfo} : IncludedBy contents headers (done ++ [f]) h ↔
    IncludedBy contents headers done h ∨ (contents.indexable f.contentHash = true ∧
      ∃ target ∈ contents.includes f.contentHash,
        resolveInclude ((parent f.path).getD []) target.1 target.2 headers = some h) := by
  simp only [IncludedBy, List.mem_append, List.mem_singleton, or_and_right, exists_or, exists_eq_left]

theorem Scanned.step {done : List FileInfo} (hs : Scanned contents headers cpp pending done acc) (f : FileInfo) :
    Scanned contents headers cpp pending (done ++ [f]) (scanSource contents headers acc f) := by
  rw [scanSource]
  split
  · next hskip =>
    refine ⟨hs.keeps, fun h hh => ?_, hs.waits, fun h hh hin => ?_⟩
    · exact (hs.sound h hh).imp_right fun hin => includedBy_append.mpr (.inl hin)
    · rcases includedBy_append.mp hin with hin | ⟨hindexable, -⟩
      · exact hs.complete h hh hin
      · -- no header waits any more
        rw [hindexable, Bool.not_true, Bool.false_or, decide_eq_true_eq] at hskip
        by_contra hnot
        have hwaits := (hs.waits h).mpr ⟨hh, hnot⟩
        rw [hskip] at hwaits
        cases hwaits
  · next hscan =>
    have hfold := foldl_scanInclude headers ((parent f.path).getD []) (contents.includes f.contentHash) acc
    have hindexable : contents.indexable f.contentHash = true := by
      by_contra hno
      exact hscan (by rw [Bool.not_eq_true] at hno; rw [hno]; rfl)
    refine ⟨fun h hh => (hfold h).1.mpr (.inl (hs.keeps h hh)), fun h hh => ?_, fun h => ?_, fun h hh hin => ?_⟩
    · rcases (hfold h).1.mp hh with hh | hresolve
      · exact (hs.sound h hh).imp_right fun hin => includedBy_append.mpr (.inl hin)
      · exact .inr (includedBy_append.mpr (.inr ⟨hindexable, hresolve⟩))
    · rw [(hfold h).2, (hfold h).1, hs.waits h, not_or, and_assoc]
    · rcases includedBy_append.mp hin with hin | ⟨-, hresolve⟩
      · exact (hfold h).1.mpr (.inl (hs.complete h hh hin))
      · exact (hfold h).1.mpr (.inr hresolve)

theorem foldl_scanSource_scanned (sources : List FileInfo) (hdisjoint : ∀ h ∈ pending, h ∉ cpp) :
    Scanned contents headers cpp pending sources (sources.foldl (scanSource contents headers) (cpp, pending)) := by
  have key : ∀ (rest done : List FileInfo) (acc : Finset String × Finset String),
      Scanned contents headers cpp pending done acc →
      Scanned contents headers cpp pending (done ++ rest) (rest.foldl (scanSource contents headers) acc) := by
    intro rest
    induction rest with
    | nil =>
      intro done acc hs
      rwa [List.append_nil]
    | cons f rest ih =>
      intro done acc hs
      have hrest := ih (done ++ [f]) _ (hs.step f)
      rwa [List.append_assoc] at hrest
  exact key sources [] (cpp, pending) (Scanned.start hdisjoint)

theorem mem_foldl_scanHeader {reused : Table String Language} (list : List FileInfo) (cpp : Finset String) (h : String) :
    h ∈ list.foldl (scanHeader contents reused) cpp ↔ h ∈ cpp ∨ ∃ f ∈ list, f.path = h ∧ reused.lookup h = none ∧
      contents.indexable f.contentHash = true ∧ contents.prefersC f.contentHash = false := by
  induction list generalizing cpp with
  | nil => simp
  | cons f list ih =>
    rw [List.foldl_cons, ih]
    have hstep : h ∈ scanHeader contents reused cpp f ↔ h ∈ cpp ∨ (f.path = h ∧ reused.lookup h = none ∧
        contents.indexable f.contentHash = true ∧ contents.prefersC f.contentHash = false) := by
      unfold scanHeader
      by_cases hcpp : f.path ∈ cpp
      · simp only [hcpp, decide_true, Bool.true_or, if_true]
        exact ⟨.inl, fun hh => hh.elim id fun hf => hf.1 ▸ hcpp⟩
      by_cases hreused : (reused.lookup f.path).isSome = true
      · simp only [hreused, Bool.or_true, if_true]
        refine ⟨.inl, fun hh => hh.resolve_right fun hf => ?_⟩
        rw [hf.1, hf.2.1] at hreused
        cases hreused
      rw [Bool.not_eq_true, Option.isSome_eq_false_iff, Option.isNone_iff_eq_none] at hreused
      cases contents.indexable f.contentHash with
      | false => simp [hcpp, hreused]
      | true =>
        cases contents.prefersC f.contentHash with
        | true => simp [hcpp, hreused]
        | false =>
          simp only [hcpp, hreused, decide_false, Option.isSome_none, Bool.or_self, Bool.not_true,
            Bool.false_eq_true, if_false, Finset.mem_insert, and_true]
          constructor
          · rintro (rfl | hh)
            · exact .inr ⟨rfl, hreused⟩
            · exact .inl hh
          · rintro (hh | ⟨rfl, -⟩)
            · exact .inr hh
            · exact .inl rfl
    rw [hstep, or_assoc]
    simp only [List.mem_cons, exists_eq_or_imp]

end Scan

section Reuse

/-- The headers that are C++ before the scan -/
def startCpp (files previous : List FileInfo) : Finset String :=
  (((reusable files previous).rows.filter fun row => row.2 = .cpp).map Prod.fst ++ siblings files).toFinset

def startPending (files previous : List FileInfo) : Finset String :=
  ((headerPaths files).filter fun header =>
    header ∉ startCpp files previous && ((reusable files previous).lookup header).isNone).toFinset

theorem mem_startCpp : h ∈ startCpp files previous ↔
    (reusable files previous).lookup h = some .cpp ∨ h ∈ siblings files := by
  rw [startCpp, List.mem_toFinset, List.mem_append]
  refine or_congr_left ?_
  rw [List.mem_map]
  constructor
  · rintro ⟨⟨path, language⟩, hrow, rfl⟩
    obtain ⟨hrow, hlanguage⟩ := List.mem_filter.mp hrow
    obtain rfl : language = .cpp := of_decide_eq_true hlanguage
    exact Table.mem_rows.mp hrow
  · intro hlookup
    exact ⟨(h, .cpp), List.mem_filter.mpr ⟨Table.mem_rows.mpr hlookup, decide_eq_true rfl⟩, rfl⟩

theorem mem_startPending : h ∈ startPending files previous ↔
    h ∈ headerPaths files ∧ h ∉ startCpp files previous ∧ (reusable files previous).lookup h = none := by
  rw [startPending, List.mem_toFinset, List.mem_filter, Bool.and_eq_true, decide_eq_true_eq, Option.isNone_iff_eq_none]

/-- The sources have been scanned. -/
def scannedHeaders (contents : Contents) (files previous : List FileInfo) : Finset String :=
  ((cppSources files).foldl (scanSource contents (headerPaths files)) (startCpp files previous, startPending files previous)).1

theorem mem_cppHeadersWithContext (hheaders : headerPaths files ≠ []) : h ∈ cppHeadersWithContext contents files previous ↔
    h ∈ scannedHeaders contents files previous ∨ (ReadsAsCpp contents files h ∧ (reusable files previous).lookup h = none) := by
  have hnonempty : ¬ (headerPaths files).isEmpty = true := by rwa [List.isEmpty_iff]
  rw [cppHeadersWithContext, if_neg hnonempty]
  change h ∈ (if (cppSources files).isEmpty then scannedHeaders contents files previous
    else (files.filter isHeader).foldl (scanHeader contents (reusable files previous))
      (scannedHeaders contents files previous)) ↔ _
  split
  · next hempty =>
    rw [List.isEmpty_iff] at hempty
    refine ⟨.inl, fun hh => hh.resolve_right fun hreads => hreads.1.1 hempty⟩
  · next hsources =>
    rw [List.isEmpty_iff] at hsources
    rw [mem_foldl_scanHeader]
    refine or_congr_right ?_
    constructor
    · rintro ⟨f, hf, rfl, hnone, hindexable, hprefers⟩
      obtain ⟨hf, hheader⟩ := List.mem_filter.mp hf
      exact ⟨⟨hsources, f.contentHash, ⟨f, hf, hheader, rfl, rfl⟩, hindexable, hprefers⟩, hnone⟩
    · rintro ⟨⟨-, hash, ⟨f, hf, hheader, rfl, rfl⟩, hindexable, hprefers⟩, hnone⟩
      exact ⟨f, List.mem_filter.mpr ⟨hf, hheader⟩, rfl, hnone, hindexable, hprefers⟩

theorem scannedHeaders_scanned (contents : Contents) (files previous : List FileInfo) : ∃ pending, Scanned contents (headerPaths files) (startCpp files previous)
    (startPending files previous) (cppSources files) (scannedHeaders contents files previous, pending) :=
  ⟨_, foldl_scanSource_scanned (cppSources files) fun _ hh => (mem_startPending.mp hh).2.1⟩

/-- A header is C++ by a prior decision or by the file list. -/
theorem isCpp_of_mem (hmem : h ∈ cppHeadersWithContext contents files previous) :
    (reusable files previous).lookup h = some .cpp ∨ IsCpp contents files h := by
  by_cases hheaders : headerPaths files = []
  · rw [cppHeadersWithContext, hheaders] at hmem
    cases hmem
  · obtain ⟨pending, hs⟩ := scannedHeaders_scanned contents files previous
    rcases (mem_cppHeadersWithContext hheaders).mp hmem with hscanned | hreads
    · rcases hs.sound h hscanned with hstart | hin
      · exact (mem_startCpp.mp hstart).imp_right .inl
      · exact .inr (.inr (.inl hin))
    · exact .inr (.inr (.inr hreads.1))

theorem mem_of_reused (hheader : h ∈ headerPaths files) (hreused : (reusable files previous).lookup h = some .cpp) :
    h ∈ cppHeadersWithContext contents files previous := by
  obtain ⟨pending, hs⟩ := scannedHeaders_scanned contents files previous
  refine (mem_cppHeadersWithContext (List.ne_nil_of_mem hheader)).mpr (.inl ?_)
  exact hs.keeps h (mem_startCpp.mpr (.inl hreused))

theorem mem_of_isCpp (hcpp : IsCpp contents files h) (hnone : (reusable files previous).lookup h = none) :
    h ∈ cppHeadersWithContext contents files previous := by
  obtain ⟨pending, hs⟩ := scannedHeaders_scanned contents files previous
  rw [mem_cppHeadersWithContext (List.ne_nil_of_mem hcpp.header)]
  rcases hcpp with hsibling | hin | hreads
  · exact .inl (hs.keeps h (mem_startCpp.mpr (.inr hsibling)))
  · by_cases hstart : h ∈ startCpp files previous
    · exact .inl (hs.keeps h hstart)
    · exact .inl (hs.complete h (mem_startPending.mpr ⟨hin.header, hstart, hnone⟩) hin)
  · exact .inr ⟨hreads, hnone⟩

end Reuse

section Scratch

theorem reusable_nil : reusable files [] = ∅ := by
  have hnone : ∀ f, priorLanguage [] f = none := fun f => rfl
  rw [reusable, List.filterMap_eq_nil_iff.mpr fun f _ => hnone f]
  rfl

/-- Routing from scratch marks exactly the C++ headers. -/
theorem mem_cppHeaders : h ∈ cppHeaders contents files ↔ IsCpp contents files h := by
  have hnone : (reusable files []).lookup h = none := by
    rw [reusable_nil]
    rfl
  constructor
  · intro hmem
    refine (isCpp_of_mem hmem).resolve_left fun hreused => ?_
    rw [hnone] at hreused
    cases hreused
  · exact fun hcpp => mem_of_isCpp hcpp hnone

end Scratch

section Evidence

/-- The same headers by name, and the same C++ files -/
structure SameEvidence (files previous : List FileInfo) : Prop where
  headers : ∀ h, h ∈ headerPaths files ↔ h ∈ headerPaths previous
  sources : ∀ path hash, (∃ f ∈ cppSources files, f.path = path ∧ f.contentHash = hash) ↔
    ∃ f ∈ cppSources previous, f.path = path ∧ f.contentHash = hash

theorem SameEvidence.perm (hsame : SameEvidence files previous) : (headerPaths files).Perm (headerPaths previous) :=
  (List.perm_ext_iff_of_nodup (List.nodup_dedup _) (List.nodup_dedup _)).mpr hsame.headers

theorem SameEvidence.siblings (hsame : SameEvidence files previous) : h ∈ siblings files ↔ h ∈ siblings previous := by
  have hdirs : ∀ dir, dir ∈ (cppSources files).filterMap (fun f => parent f.path) ↔
      dir ∈ (cppSources previous).filterMap fun f => parent f.path := by
    intro dir
    simp only [List.mem_filterMap]
    constructor
    · rintro ⟨f, hf, hdir⟩
      obtain ⟨g, hg, hpath, -⟩ := (hsame.sources f.path f.contentHash).mp ⟨f, hf, rfl, rfl⟩
      exact ⟨g, hg, by rw [hpath, hdir]⟩
    · rintro ⟨f, hf, hdir⟩
      obtain ⟨g, hg, hpath, -⟩ := (hsame.sources f.path f.contentHash).mpr ⟨f, hf, rfl, rfl⟩
      exact ⟨g, hg, by rw [hpath, hdir]⟩
  rw [Parser.siblings, Parser.siblings, List.mem_filter, List.mem_filter, hsame.headers h]
  refine and_congr_right fun _ => ?_
  cases parent h with
  | none => rfl
  | some dir => simpa using hdirs dir

theorem SameEvidence.includedBy (hsame : SameEvidence files previous) :
    IncludedBy contents (headerPaths files) (cppSources files) h ↔
      IncludedBy contents (headerPaths previous) (cppSources previous) h := by
  constructor
  · rintro ⟨f, hf, hindexable, target, htarget, hresolve⟩
    obtain ⟨g, hg, hpath, hhash⟩ := (hsame.sources f.path f.contentHash).mp ⟨f, hf, rfl, rfl⟩
    refine ⟨g, hg, hhash ▸ hindexable, target, hhash ▸ htarget, ?_⟩
    rw [hpath, ← resolveInclude_perm hsame.perm, hresolve]
  · rintro ⟨f, hf, hindexable, target, htarget, hresolve⟩
    obtain ⟨g, hg, hpath, hhash⟩ := (hsame.sources f.path f.contentHash).mpr ⟨f, hf, rfl, rfl⟩
    refine ⟨g, hg, hhash ▸ hindexable, target, hhash ▸ htarget, ?_⟩
    rw [hpath, resolveInclude_perm hsame.perm, hresolve]

theorem SameEvidence.ne_nil (hsame : SameEvidence files previous) : cppSources files ≠ [] ↔ cppSources previous ≠ [] := by
  constructor
  · intro hne
    obtain ⟨f, hf⟩ := List.exists_mem_of_ne_nil _ hne
    obtain ⟨g, hg, -⟩ := (hsame.sources f.path f.contentHash).mp ⟨f, hf, rfl, rfl⟩
    exact List.ne_nil_of_mem hg
  · intro hne
    obtain ⟨f, hf⟩ := List.exists_mem_of_ne_nil _ hne
    obtain ⟨g, hg, -⟩ := (hsame.sources f.path f.contentHash).mpr ⟨f, hf, rfl, rfl⟩
    exact List.ne_nil_of_mem hg

/-- Equal evidence and an equal content give an equal dialect. -/
theorem SameEvidence.isCpp (hsame : SameEvidence files previous)
    (hcontent : ∀ hash, HasContent files h hash ↔ HasContent previous h hash) :
    IsCpp contents files h ↔ IsCpp contents previous h := by
  unfold IsCpp ReadsAsCpp
  rw [hsame.siblings, hsame.includedBy, hsame.ne_nil]
  simp only [hcontent]

end Evidence

section Discovery

/-- Each path once -/
def Distinct (files : List FileInfo) : Prop := (files.map (·.path)).Nodup

/-- The language of a header says whether routing from scratch marks it. -/
def RoutedFromScratch (contents : Contents) (previous : List FileInfo) : Prop :=
  ∀ f ∈ previous, isHeader f = true → (f.language = .cpp ↔ f.path ∈ cppHeaders contents previous)

theorem Distinct.eq (hdistinct : Distinct files) {f g : FileInfo} (hf : f ∈ files) (hg : g ∈ files)
    (hpath : f.path = g.path) : f = g := List.inj_on_of_nodup_map hdistinct hf hg hpath

theorem collect_hashes {picks : FileInfo → Bool} (hdistinct : Distinct files) {path hash : String} :
    (Table.collect ((files.filter picks).map fun f => (f.path, f.contentHash))).lookup path = some hash ↔
      ∃ f ∈ files, picks f = true ∧ f.path = path ∧ f.contentHash = hash := by
  have hnodup : (((files.filter picks).map fun f => (f.path, f.contentHash)).map Prod.fst).Nodup := by
    rw [List.map_map]
    exact hdistinct.sublist (List.filter_sublist.map _)
  rw [Table.lookup_collect hnodup]
  simp only [List.mem_map, List.mem_filter, Prod.mk.injEq, and_assoc]

theorem lookup_priorHeaders (hdistinct : Distinct previous) {path : String} {prior : FileInfo} :
    (priorHeaders previous).lookup path = some prior ↔ prior ∈ previous ∧ isHeader prior = true ∧ prior.path = path := by
  have hnodup : (((previous.filter isHeader).map fun f => (f.path, f)).map Prod.fst).Nodup := by
    rw [List.map_map]
    exact hdistinct.sublist (List.filter_sublist.map _)
  rw [priorHeaders, Table.lookup_collect hnodup]
  simp only [List.mem_map, List.mem_filter, Prod.mk.injEq]
  constructor
  · rintro ⟨f, hf, hpath, rfl⟩
    exact ⟨hf.1, hf.2, hpath⟩
  · rintro ⟨hmem, hheader, hpath⟩
    exact ⟨prior, ⟨hmem, hheader⟩, hpath, rfl⟩

theorem mem_keys_priorHeaders (hdistinct : Distinct previous) : h ∈ (priorHeaders previous).keys ↔ h ∈ headerPaths previous := by
  rw [← AList.mem_keys, mem_iff_lookup, Option.ne_none_iff_exists', mem_headerPaths]
  exact exists_congr fun prior => lookup_priorHeaders hdistinct

theorem sameEvidence_of_stable (hdistinct : Distinct files) (hprevious : Distinct previous)
    (hstable : stableEvidence files previous = true) : SameEvidence files previous := by
  rw [stableEvidence, Bool.and_eq_true, Bool.and_eq_true, decide_eq_true_eq, List.all_eq_true] at hstable
  obtain ⟨⟨hlength, hall⟩, hevidence⟩ := hstable
  have hsub : headerPaths files ⊆ (priorHeaders previous).keys := by
    intro h hh
    rw [← AList.mem_keys, mem_iff_lookup]
    exact Option.isSome_iff_ne_none.mp (hall h hh)
  have hperm : (headerPaths files).Perm (priorHeaders previous).keys :=
    (List.subperm_of_subset (List.nodup_dedup _) hsub).perm_of_length_le hlength.ge
  refine ⟨fun h => hperm.mem_iff.trans (mem_keys_priorHeaders hprevious), fun path hash => ?_⟩
  have hlookup := Table.lookup_eq_of_same hevidence path
  have hcurrent : (cppEvidence files).lookup path = some hash ↔ _ := collect_hashes hdistinct
  have hprior : (cppEvidence previous).lookup path = some hash ↔ _ := collect_hashes hprevious
  rw [hlookup, hprior] at hcurrent
  simp only [cppSources, List.mem_filter, and_assoc]
  exact hcurrent.symm

theorem paths_priorLanguage (previous list : List FileInfo) :
    ((list.filterMap (priorLanguage previous)).map Prod.fst).Sublist (list.map (·.path)) := by
  induction list with
  | nil => exact List.Sublist.refl _
  | cons f list ih =>
    cases hrow : priorLanguage previous f with
    | none =>
      rw [List.filterMap_cons_none hrow]
      exact ih.trans (List.sublist_cons_self _ _)
    | some row =>
      have hpath : row.1 = f.path := by
        obtain ⟨prior, -, hrow⟩ := Option.bind_eq_some_iff.mp hrow
        split at hrow
        · exact (Option.some_inj.mp hrow) ▸ rfl
        · cases hrow
      rw [List.filterMap_cons_some hrow, List.map_cons, List.map_cons, hpath]
      exact ih.cons_cons _

/-- A reused decision is that of a prior file with the same path and content. -/
theorem lookup_reusable (hdistinct : Distinct files) (hprevious : Distinct previous) {language : Language}
    (hlookup : (reusable files previous).lookup h = some language) : stableEvidence files previous = true ∧
      ∃ f ∈ files, isHeader f = true ∧ f.path = h ∧
        ∃ prior ∈ previous, isHeader prior = true ∧ prior.path = h ∧ prior.contentHash = f.contentHash ∧
          prior.language = language := by
  have hnodup : (((files.filter fun f => stableEvidence files previous && isHeader f).filterMap
      (priorLanguage previous)).map Prod.fst).Nodup :=
    hdistinct.sublist ((paths_priorLanguage previous _).trans (List.filter_sublist.map _))
  rw [reusable, Table.lookup_collect hnodup, List.mem_filterMap] at hlookup
  obtain ⟨f, hf, hrow⟩ := hlookup
  obtain ⟨hf, hcond⟩ := List.mem_filter.mp hf
  rw [Bool.and_eq_true] at hcond
  obtain ⟨prior, hprior, hrow'⟩ := Option.bind_eq_some_iff.mp hrow
  split at hrow'
  · next hhash =>
    rw [Option.some_inj, Prod.mk.injEq] at hrow'
    obtain ⟨hmem, hheader, hpriorPath⟩ := (lookup_priorHeaders hprevious).mp hprior
    exact ⟨hcond.1, f, hf, hcond.2, hrow'.1, prior, hmem, hheader, hpriorPath.trans hrow'.1, hhash, hrow'.2⟩
  · cases hrow'

theorem hasContent_iff (hdistinct : Distinct files) {f : FileInfo} (hf : f ∈ files) (hheader : isHeader f = true)
    (hash : String) : HasContent files f.path hash ↔ f.contentHash = hash := by
  constructor
  · rintro ⟨g, hg, -, hpath, rfl⟩
    rw [hdistinct.eq hg hf hpath]
  · rintro rfl
    exact ⟨f, hf, hheader, rfl, rfl⟩

/-- Per-header reuse gives the dialects of routing from scratch. -/
theorem cppHeadersWithContext_eq (hdistinct : Distinct files) (hprevious : Distinct previous)
    (hrouted : RoutedFromScratch contents previous) :
    cppHeadersWithContext contents files previous = cppHeaders contents files := by
  ext h
  rw [mem_cppHeaders]
  cases hlookup : (reusable files previous).lookup h with
  | none =>
    refine ⟨fun hmem => (isCpp_of_mem hmem).resolve_left ?_, fun hcpp => mem_of_isCpp hcpp hlookup⟩
    rw [hlookup]
    exact fun hsome => by cases hsome
  | some language =>
    obtain ⟨hstable, f, hf, hheader, rfl, prior, hprior, hpriorHeader, hpath, hhash, rfl⟩ :=
      lookup_reusable hdistinct hprevious hlookup
    have hdialect : IsCpp contents files f.path ↔ prior.language = .cpp := by
      rw [(sameEvidence_of_stable hdistinct hprevious hstable).isCpp fun hash => ?_, hrouted prior hprior hpriorHeader,
        mem_cppHeaders, hpath]
      rw [hasContent_iff hdistinct hf hheader, ← hpath, hasContent_iff hprevious hprior hpriorHeader, hhash]
    constructor
    · intro hmem
      rcases isCpp_of_mem hmem with hreused | hcpp
      · rw [hlookup, Option.some_inj] at hreused
        exact hdialect.mpr hreused
      · exact hcpp
    · intro hcpp
      refine mem_of_reused (mem_headerPaths.mpr ⟨f, hf, hheader, rfl⟩) ?_
      rw [hlookup, hdialect.mp hcpp]

theorem relevant_iff (hdistinct : Distinct files) (hprevious : Distinct previous)
    (hsame : (relevantHashes files).same (relevantHashes previous) = true) (path hash : String) :
    (∃ f ∈ files, (isHeader f || isEvidence f) = true ∧ f.path = path ∧ f.contentHash = hash) ↔
      ∃ f ∈ previous, (isHeader f || isEvidence f) = true ∧ f.path = path ∧ f.contentHash = hash := by
  have hlookup := Table.lookup_eq_of_same hsame path
  have hcurrent : (relevantHashes files).lookup path = some hash ↔ _ := collect_hashes hdistinct
  have hprior : (relevantHashes previous).lookup path = some hash ↔ _ := collect_hashes hprevious
  rw [hlookup, hprior] at hcurrent
  exact hcurrent.symm

/-- A condition on the path alone picks the same files of both lists. -/
theorem picked_iff (picks : FileInfo → Bool) (hdistinct : Distinct files) (hprevious : Distinct previous)
    (hsame : (relevantHashes files).same (relevantHashes previous) = true)
    (hrelevant : ∀ f, picks f = true → (isHeader f || isEvidence f) = true)
    (hpath : ∀ f g : FileInfo, f.path = g.path → picks f = picks g) (path hash : String) :
    (∃ f ∈ files, picks f = true ∧ f.path = path ∧ f.contentHash = hash) ↔
      ∃ f ∈ previous, picks f = true ∧ f.path = path ∧ f.contentHash = hash := by
  constructor
  · rintro ⟨f, hf, hpick, rfl, rfl⟩
    obtain ⟨g, hg, -, hgpath, hghash⟩ :=
      (relevant_iff hdistinct hprevious hsame f.path f.contentHash).mp ⟨f, hf, hrelevant f hpick, rfl, rfl⟩
    exact ⟨g, hg, by rw [hpath g f hgpath, hpick], hgpath, hghash⟩
  · rintro ⟨f, hf, hpick, rfl, rfl⟩
    obtain ⟨g, hg, -, hgpath, hghash⟩ :=
      (relevant_iff hdistinct hprevious hsame f.path f.contentHash).mpr ⟨f, hf, hrelevant f hpick, rfl, rfl⟩
    exact ⟨g, hg, by rw [hpath g f hgpath, hpick], hgpath, hghash⟩

theorem isHeader_path (f g : FileInfo) (hpath : f.path = g.path) : isHeader f = isHeader g := by
  rw [isHeader, isHeader, hpath]

theorem isEvidence_path (f g : FileInfo) (hpath : f.path = g.path) : isEvidence f = isEvidence g := by
  rw [isEvidence, isEvidence, hpath]

/-- Whole-context reuse gives the dialects of routing from scratch. -/
theorem unchangedContext_eq (hdistinct : Distinct files) (hprevious : Distinct previous)
    (hrouted : RoutedFromScratch contents previous) {cpp : Finset String}
    (hreuse : unchangedContext files previous = some cpp) : cpp = cppHeaders contents files := by
  unfold unchangedContext at hreuse
  split at hreuse
  · cases hreuse
  split at hreuse
  · next hsame =>
    obtain rfl := Option.some_inj.mp hreuse
    have hheader := picked_iff isHeader hdistinct hprevious hsame (fun f hf => by rw [hf, Bool.true_or])
      isHeader_path
    have hsource := picked_iff isEvidence hdistinct hprevious hsame (fun f hf => by rw [hf, Bool.or_true])
      isEvidence_path
    have hevidence : SameEvidence files previous := by
      constructor
      · intro h
        rw [mem_headerPaths, mem_headerPaths]
        constructor
        · rintro ⟨f, hf, hpick, rfl⟩
          obtain ⟨g, hg, hgpick, hgpath, -⟩ := (hheader f.path f.contentHash).mp ⟨f, hf, hpick, rfl, rfl⟩
          exact ⟨g, hg, hgpick, hgpath⟩
        · rintro ⟨f, hf, hpick, rfl⟩
          obtain ⟨g, hg, hgpick, hgpath, -⟩ := (hheader f.path f.contentHash).mpr ⟨f, hf, hpick, rfl, rfl⟩
          exact ⟨g, hg, hgpick, hgpath⟩
      · intro path hash
        simp only [cppSources, List.mem_filter, and_assoc]
        exact hsource path hash
    ext h
    rw [mem_cppHeaders, hevidence.isCpp (hheader h), ← mem_cppHeaders, List.mem_toFinset, List.mem_map]
    constructor
    · rintro ⟨f, hf, rfl⟩
      obtain ⟨hf, hcpp⟩ := List.mem_filter.mp hf
      rw [Bool.and_eq_true, decide_eq_true_eq] at hcpp
      exact (hrouted f hf hcpp.1).mp hcpp.2
    · intro hcpp
      obtain ⟨f, hf, hpick, rfl⟩ := mem_headerPaths.mp (mem_cppHeaders.mp hcpp).header
      refine ⟨f, List.mem_filter.mpr ⟨hf, ?_⟩, rfl⟩
      rw [hpick, Bool.true_and, decide_eq_true_eq]
      exact (hrouted f hf hpick).mpr hcpp
  · cases hreuse

/-- Discovery with the prior decisions chooses the C++ headers of routing from scratch. -/
theorem discovered_headers_eq_scratch (contents : Contents) (files previous : List FileInfo) (hdistinct : Distinct files)
    (hprevious : Distinct previous) (hrouted : RoutedFromScratch contents previous) :
    discoveredCppHeaders contents files previous = cppHeaders contents files := by
  rw [discoveredCppHeaders]
  cases hreuse : unchangedContext files previous with
  | some cpp => exact unchangedContext_eq hdistinct hprevious hrouted hreuse
  | none => exact cppHeadersWithContext_eq hdistinct hprevious hrouted

/-- Content `1` includes `a.h`; content `3` does not read as C. -/
def sampleContents : Contents where
  indexable _ := true
  includes hash := if hash = "1" then [("a.h", true)] else []
  prefersC hash := hash ≠ "3"

def routedFiles : List FileInfo := [⟨"inc/a.h", .cpp, "2"⟩, ⟨"b.h", .c, "2"⟩, ⟨"src/x.cpp", .cpp, "1"⟩]

/-- `b.h` has been edited. -/
def editedFiles : List FileInfo := [⟨"inc/a.h", .c, "2"⟩, ⟨"b.h", .c, "3"⟩, ⟨"src/x.cpp", .cpp, "1"⟩]

theorem discovered_headers_eq_scratch_edited : stableEvidence editedFiles routedFiles = true ∧
    cppHeaders sampleContents editedFiles = {"inc/a.h", "b.h"} ∧
    discoveredCppHeaders sampleContents editedFiles routedFiles = cppHeaders sampleContents editedFiles := by
  have hrouted : RoutedFromScratch sampleContents routedFiles := by
    unfold RoutedFromScratch
    decide
  exact ⟨by decide, by decide, discovered_headers_eq_scratch sampleContents editedFiles routedFiles
    (by unfold Distinct; decide) (by unfold Distinct; decide) hrouted⟩

end Discovery

end Parser
end CodeSage
