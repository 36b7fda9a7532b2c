import CodeSage.Graph.SemanticConverges

/-!
# CodeSage.Graph.SemanticHistory

Histories of structural and semantic passes. The semantic hash of a path names its content alone, and the rows
stand for a content under a language; `Agrees` is what makes up for it: no semantic pass writes a file whose
structural row has the same content under another language.
-/

namespace CodeSage
namespace Graph

open Lib Lib.Prog
open CodeSage.Parser (Language FileInfo)

variable {ρ β φ ν : Type} {x : Extraction ρ β} {setup : Setup φ ν} {reads : Reads} {own : φ} {reuse : Bool}
  {s s' : Store ρ β φ ν} {report : DiscoveryReport} {strategy : IndexStrategy} {files : List FileInfo}

theorem EmbedKeeps.and {P Q : Store ρ β φ ν → Prop} (hP : EmbedKeeps setup reads own reuse files P)
    (hQ : EmbedKeeps setup reads own reuse files Q) : EmbedKeeps setup reads own reuse files fun s => P s ∧ Q s where
  forget s path h := ⟨hP.forget s path h.1, hQ.forget s path h.2⟩
  log s reused h := ⟨hP.log s reused h.1, hQ.log s reused h.2⟩
  write s₀ s selected h₀ hselected f hf h :=
    ⟨hP.write s₀ s selected h₀.1 hselected f hf h.1, hQ.write s₀ s selected h₀.2 hselected f hf h.2⟩

theorem within_embedKeeps (hfiles : ∀ f ∈ files, f ∈ report.files) :
    EmbedKeeps setup reads own reuse files (Within report (ρ := ρ) (β := β)) where
  forget s path h := by
    refine ⟨fun c hc => h.rows c (List.mem_of_mem_filter hc), fun p hash hhash => ?_⟩
    rw [Store.forgetSemantic, Store.deleteSemanticHash, Store.deleteChunks, lookup_erase] at hhash
    exact h.hashes p hash (lookup_of_ite hhash).2
  log _ _ h := ⟨h.rows, h.hashes⟩
  write s₀ s selected _ hselected f hf h := by
    obtain ⟨g, hg, -, rfl⟩ := hselected f hf
    have hin : g.path ∈ discoveredPaths report :=
      List.mem_append_left _ (List.mem_map_of_mem (hfiles g hg))
    constructor
    · intro c hc
      rcases List.mem_append.mp hc with hc | hc
      · exact h.rows c (List.mem_of_mem_filter hc)
      · rw [rowsFor_path c hc]
        exact hin
    · intro path hash hhash
      rw [writeSemantic, lookup_insert] at hhash
      split at hhash
      · next hpath => exact hpath ▸ hin
      · exact h.hashes path hash hhash

theorem semanticRemoveFiles_rendered {table : Table String (FileRow ρ β)} (paths : List String) :
    Keeps (RenderedUnder setup table) (semanticRemoveFiles paths : Pass ρ β φ ν Unit) :=
  Keeps.commit fun _ hs => foldl_keeps (fun path _ _ h => ⟨h.1, rendered_forget path h.2⟩) hs

theorem openForModelRebuild_rendered {table : Table String (FileRow ρ β)} (model : String) (dim : Nat) :
    Keeps (RenderedUnder setup table) (openForModelRebuild model dim : Pass ρ β φ ν Unit) := by
  refine Keeps.state fun s hs => ?_
  refine (Keeps.bind (Keeps.whenever fun _ => Keeps.commit fun s hs => ?_) fun _ => Keeps.bind (Keeps.commit fun s hs => ?_)
    fun _ => Keeps.bind (Keeps.commit fun s hs => ?_) fun _ => Keeps.commit fun s hs => ?_) s hs
  · exact ⟨hs.1, hs.2.step fun path => .inr (.inl rfl)⟩
  · exact hs
  · exact hs
  · exact hs

section Passes

variable [DecidableEq φ]

/-- The files the pass embeds -/
def embeddedFiles (own : φ) (report : DiscoveryReport) (strategy : IndexStrategy) (s : Store ρ β φ ν) : List FileInfo :=
  selectSemanticFiles s report.files (if isStale own s then .full else strategy)

theorem embeddedFiles_sub {f : FileInfo} (hf : f ∈ embeddedFiles own report strategy s) : f ∈ report.files := by
  unfold embeddedFiles at hf
  generalize (if isStale own s then IndexStrategy.full else strategy) = selection at hf
  cases selection with
  | full => exact hf
  | incremental => exact List.mem_of_mem_filter hf

/-- The chunk rows fit the structural rows wherever the pass ends; at its end only discovered paths are left,
with the hashes of what was read. -/
theorem semanticIndexDiscoveryReport_rendered (hs : Rendered setup s)
    (hsame : ∀ f ∈ embeddedFiles own report strategy s, SameLanguage reads s.files f) :
    Ends (semanticIndexDiscoveryReport setup reads own report strategy) s
      (fun failed s' => (RenderedUnder setup s.files s' ∧ Within report s') ∧ (failed = [] → report.failedPaths = [] ∧
        ∀ f ∈ report.files, s'.semanticFiles.lookup f.path =
          if f.path ∈ (embeddedFiles own report strategy s).map (·.path) then some (reads.disk f.path)
          else s.semanticFiles.lookup f.path))
      (fun _ s' => RenderedUnder setup s.files s') := by
  refine Ends.state (Ends.bind (Q := fun _ s₁ => RenderedUnder setup s.files s₁ ∧ s₁.chunks = s.chunks ∧
    s₁.semanticFiles = s.semanticFiles) ?_ ?_)
  · exact Ends.whenever (fun _ => Ends.commit ⟨⟨rfl, hs⟩, rfl, rfl⟩ fun _ => ⟨rfl, hs⟩) fun _ => ⟨⟨rfl, hs⟩, rfl, rfl⟩
  rintro _ s₁ ⟨h₁, hchunks, hhashes⟩
  refine Ends.bind (removeSemanticOrphans_spec (E := RenderedUnder setup s.files) h₁) ?_
  rintro _ _ rfl
  generalize hs₂ : withoutOrphans s report s₁ = s₂
  have h₂ : RenderedUnder setup s.files s₂ ∧ Within report s₂ := by
    rw [← hs₂]
    exact ⟨⟨withoutOrphans_files.trans h₁.1, withoutOrphans_rendered hhashes h₁.2⟩, withoutOrphans_within hchunks hhashes⟩
  have hkept : ∀ f ∈ report.files, s₂.semanticFiles.lookup f.path = s.semanticFiles.lookup f.path := by
    intro f hf
    have hin : f.path ∈ discoveredPaths report := List.mem_append_left _ (List.mem_map_of_mem hf)
    rw [← hs₂, lookup_withoutOrphans, if_neg (not_orphan hin).2, hhashes]
  have hk : EmbedKeeps setup reads own (strategy ≠ .full && !isStale own s) (embeddedFiles own report strategy s)
      fun s' => RenderedUnder setup s.files s' ∧ Within report s' :=
    (renderedUnder_embedKeeps hsame).and (within_embedKeeps fun f hf => embeddedFiles_sub hf)
  refine Ends.bind (((embedSelected_keeps hk s₂ h₂).and embedSelected_hashed).mono (fun _ _ h => h) fun _ _ h => h.1.1) ?_
  rintro failed s₃ ⟨h₃, hhashed⟩
  have hfinal : failed = [] → report.failedPaths = [] ∧ ∀ f ∈ report.files, s₃.semanticFiles.lookup f.path =
      if f.path ∈ (embeddedFiles own report strategy s).map (·.path) then some (reads.disk f.path)
      else s.semanticFiles.lookup f.path := by
    intro hnone
    obtain ⟨hreport, hby⟩ := hhashed hnone
    exact ⟨hreport, fun f hf => by rw [← hkept f hf]; exact hby f.path⟩
  -- the record changes nothing but the fingerprint
  refine Ends.bind (Q := fun _ s₄ => s₄.files = s₃.files ∧ s₄.chunks = s₃.chunks ∧ s₄.semanticFiles = s₃.semanticFiles) ?_ ?_
  · refine Ends.whenever (fun _ => Ends.state ?_) fun _ => ⟨rfl, rfl, rfl⟩
    split
    · exact Ends.throw h₃.1
    · exact Ends.commit ⟨rfl, rfl, rfl⟩ fun _ => h₃.1
  · rintro _ s₄ ⟨hfiles, hchunks₄, hhashes₄⟩
    refine Ends.pure ⟨⟨⟨hfiles.trans h₃.1.1, h₃.1.2.step fun path => .inr (.inr ⟨by rw [hhashes₄], ?_, ?_⟩)⟩, ?_, ?_⟩, ?_⟩
    · rw [rowsAt, rowsAt, hchunks₄]
    · rw [hfiles]
      exact fun row hrow => ⟨row, hrow, rfl, rfl, rfl⟩
    · rw [hchunks₄]
      exact h₃.2.rows
    · rw [hhashes₄]
      exact h₃.2.hashes
    · rw [hhashes₄]
      exact hfinal

theorem semanticIndexFiles_rendered (hs : Rendered setup s) (hsame : ∀ f ∈ files, SameLanguage reads s.files f) :
    Ends (semanticIndexFiles setup reads own files) s (fun _ s' => RenderedUnder setup s.files s')
      (fun _ s' => RenderedUnder setup s.files s') := by
  have hstart : RenderedUnder setup s.files s := ⟨rfl, hs⟩
  rw [semanticIndexFiles]
  split
  · exact Ends.pure hstart
  · refine Ends.state (Ends.bind (Q := fun _ s₁ => RenderedUnder setup s.files s₁) ?_ fun _ s₁ h₁ => ?_)
    · exact Ends.whenever (fun _ => Ends.commit hstart fun _ => hstart) fun _ => hstart
    · exact embedFiles_keeps (renderedUnder_embedKeeps hsame) _ _ s₁ h₁

end Passes

/-- Rows and hashes as the passes need them -/
structure Coherent (x : Extraction ρ β) (setup : Setup φ ν) (s : Store ρ β φ ν) : Prop where
  rows : RowsOk x s
  rendered : Rendered setup s
  sound : Sound setup s

theorem RowsOk.ofFiles (h : RowsOk x s) (hfiles : s'.files = s.files) : RowsOk x s' := fun path row hrow =>
  h path row (hfiles ▸ hrow)

theorem empty_coherent : Coherent x setup ({} : Store ρ β φ ν) where
  rows _ _ hrow := by cases hrow
  rendered _ _ hrow := by cases hrow
  sound := ⟨fun _ hown => (by cases hown), fun _ hr => (by cases hr)⟩

section History

variable [DecidableEq φ]

/-- No file is written whose structural row has the content that is read under another language. -/
def IndexEvent.Agrees (s : Store ρ β φ ν) (e : IndexEvent φ) : Prop :=
  match e.op with
  | .semanticIndex report strategy own => ∀ f ∈ embeddedFiles own report strategy s, SameLanguage e.reads s.files f
  | .semanticIndexFiles files _ => ∀ f ∈ files, SameLanguage e.reads s.files f
  | _ => True

/-- The files of the structural passes come from discovery. -/
def IndexEvent.Discovered (e : IndexEvent φ) : Prop :=
  match e.op with
  | .structural op => StructuralEvent.Discovered ⟨op, e.reads, e.faults⟩
  | _ => True

def AllAgree (x : Extraction ρ β) (setup : Setup φ ν) : Store ρ β φ ν → List (IndexEvent φ) → Prop
  | _, [] => True
  | s, e :: events => e.Agrees s ∧ AllAgree x setup (e.after x setup s) events

theorem after_coherent {e : IndexEvent φ} (hdiscovered : e.Discovered) (hagrees : e.Agrees s)
    (h : Coherent x setup s) : Coherent x setup (e.after x setup s) := by
  have hsound : Sound setup (e.after x setup s) := after_sound e h.sound
  have hunder : ∀ s', RenderedUnder setup s.files s' → Sound setup s' → Coherent x setup s' :=
    fun s' hr hs' => ⟨h.rows.ofFiles hr.1, hr.2, hs'⟩
  have hstart : RenderedUnder setup s.files s := ⟨rfl, h.rendered⟩
  obtain ⟨op, reads, faults⟩ := e
  cases op with
  | structural op =>
    refine ⟨after_rowsOk hdiscovered h.rows, ?_, hsound⟩
    cases op with
    | index report strategy => exact (indexDiscoveryReport_keeps rendered_reportKeeps).holds h.rendered faults
    | indexFiles files => exact (indexFiles_keeps rendered_filesKeep).holds h.rendered faults
    | removeFilesWithSource paths => exact (removeFilesWithSource_keeps rendered_removalKeeps).holds h.rendered faults
  | removeFiles paths =>
    refine ⟨?_, ?_, hsound⟩
    · exact (removeFiles_keeps (fun _ h => rowsOk_markStale headerMark_ne h) fun _ h => rowsOk_remove paths h).holds
        h.rows faults
    · exact (removeFiles_keeps (fun _ h => rendered_markStale h) fun _ h =>
        rendered_foldl (fun _ => rendered_removeFile) paths h).holds h.rendered faults
  | semanticIndex report strategy own =>
    refine hunder _ ?_ hsound
    have hpost := semanticIndexDiscoveryReport_rendered h.rendered hagrees faults
    unfold Post at hpost
    split at hpost
    · exact hpost.1.1
    · exact hpost
  | semanticIndexFiles files own =>
    refine hunder _ ?_ hsound
    have hpost : Post (fun _ s' => RenderedUnder setup s.files s') (fun _ s' => RenderedUnder setup s.files s')
      (semanticIndexFiles setup reads own files ⟨s, faults⟩) := semanticIndexFiles_rendered h.rendered hagrees faults
    unfold Post at hpost
    split at hpost <;> exact hpost
  | semanticRemoveFiles paths => exact hunder _ ((semanticRemoveFiles_rendered paths).holds hstart faults) hsound
  | openForModelRebuild model dim => exact hunder _ ((openForModelRebuild_rendered model dim).holds hstart faults) hsound

theorem history_coherent {events : List (IndexEvent φ)} (hdiscovered : ∀ e ∈ events, e.Discovered)
    (hagree : AllAgree x setup s events) (h : Coherent x setup s) :
    Coherent x setup (events.foldl (IndexEvent.after x setup) s) := by
  induction events generalizing s with
  | nil => exact h
  | cons e events ih =>
    exact ih (fun e' he' => hdiscovered e' (List.mem_cons_of_mem _ he')) hagree.2
      (after_coherent (hdiscovered e List.mem_cons_self) hagree.1 h)

end History

section Settle

/-- Every file of the report has a row with its content, language and symbols. -/
def FilesFit (x : Extraction ρ β) (report : DiscoveryReport) (s : Store ρ β φ ν) : Prop :=
  ∀ f ∈ report.files, ∃ row, s.files.lookup f.path = some row ∧ row.contentHash = f.contentHash ∧
    row.language = f.language ∧ row.symbols = x.symbols f.path f.contentHash f.language

theorem not_differs_of_skipped {before : Store ρ β φ ν} {f : FileInfo} (hf : f ∈ report.files)
    (hskip : f ∉ filesToParse before report strategy) : differs before f = false := by
  cases strategy with
  | full => exact absurd hf hskip
  | incremental =>
    rw [← Bool.not_eq_true]
    exact fun hdiffers => hskip (List.mem_filter.mpr ⟨hf, by rw [hdiffers, Bool.true_or]⟩)

theorem indexDiscoveryReport_fit (hrows : RowsOk x s) (hdetected : Detected report.files)
    (haccurate : Accurate reads report) : Ends (indexDiscoveryReport x reads report strategy) s
      (fun failed s' => failed = [] → FilesFit x report s') (fun _ _ => True) := by
  refine (indexDiscoveryReport_spec hdetected.unique).mono ?_ fun _ _ _ => trivial
  rintro allFailed s' ⟨context, failed, s₁, s₂, h⟩ hnone f hf
  rw [(h.rows hdetected hnone).1 f hf]
  split
  · exact ⟨_, rfl, haccurate f hf, rfl, congrArg (fun hash => x.symbols f.path hash f.language) (haccurate f hf)⟩
  · next hskip =>
    obtain ⟨row, hrow, hhash, hlanguage, hcurrent⟩ := row_of_not_differs (not_differs_of_skipped hf hskip)
    have hok := (headerChecked_sameRows report hrows).1 f.path row hrow
    exact ⟨row, hrow, hhash, hlanguage, by rw [hok.symbols hcurrent, hhash, hlanguage]⟩

/-- The symbols a chunk header may name -/
def headerSymbols (x : Extraction ρ β) (f : FileInfo) : List SymbolRow :=
  (x.symbols f.path f.contentHash f.language).mergeSort fun a b => a.lineStart ≤ b.lineStart

/-- A row of this shape embedded under `own` -/
def rowOfShape (setup : Setup φ ν) (own : φ) (path : String) (shape : String × String × Nat × Nat) : ChunkRow φ ν :=
  ⟨path, shape.1, shape.2.1, shape.2.2.1, shape.2.2.2, setup.embed own shape.2.1, own⟩

/-- Exactly the chunk rows and hashes of the files of the report -/
structure SemanticSettled (x : Extraction ρ β) (setup : Setup φ ν) (own : φ) (report : DiscoveryReport)
    (s : Store ρ β φ ν) : Prop where
  rows : ∀ f ∈ report.files, rowsAt s f.path =
    (renderFile setup f (headerSymbols x f)).shapes.map (rowOfShape setup own f.path)
  hash : ∀ f ∈ report.files, s.semanticFiles.lookup f.path = some f.contentHash
  other : ∀ path, (∀ f ∈ report.files, f.path ≠ path) → rowsAt s path = [] ∧ s.semanticFiles.lookup path = none

theorem rowsAt_of_good (hgood : ∀ c ∈ s.chunks, RowGood setup own c) (path : String) :
    rowsAt s path = ((rowsAt s path).map ChunkRow.shape).map (rowOfShape setup own path) := by
  rw [List.map_map]
  conv_lhs => rw [← List.map_id (rowsAt s path)]
  refine List.map_congr_left fun c hc => ?_
  obtain ⟨hc, hpath⟩ := List.mem_filter.mp hc
  obtain ⟨htag, hvector⟩ := hgood c hc
  obtain ⟨filePath, language, text, startLine, endLine, vector, embeddedUnder⟩ := c
  obtain rfl : filePath = path := of_decide_eq_true hpath
  obtain rfl : embeddedUnder = own := htag
  obtain rfl : vector = setup.embed embeddedUnder text := hvector
  rfl

theorem semanticIndexDiscoveryReport_settled [DecidableEq φ] (h : Coherent x setup s) (hfit : FilesFit x report s)
    (haccurate : Accurate reads report) :
    Ends (semanticIndexDiscoveryReport setup reads own report strategy) s
      (fun failed s' => failed = [] → SemanticSettled x setup own report s') (fun _ _ => True) := by
  have hsame : ∀ f ∈ embeddedFiles own report strategy s, SameLanguage reads s.files f := by
    intro f hf _ row hrow _
    obtain ⟨row', hrow', -, hlanguage, -⟩ := hfit f (embeddedFiles_sub hf)
    obtain rfl := Option.some_inj.mp (hrow.symm.trans hrow')
    exact hlanguage
  refine ((semanticIndexDiscoveryReport_rendered h.rendered hsame).and (semanticIndexDiscoveryReport_sound h.sound)).mono
    ?_ fun _ _ _ => trivial
  rintro failed s' ⟨⟨⟨hrendered, hwithin⟩, hhashes⟩, -, hgood⟩ hnone
  obtain ⟨hreport, hhashes⟩ := hhashes hnone
  have hgood' : ∀ c ∈ s'.chunks, RowGood setup own c := hgood (by rw [retainedStaleRows, hreport]; simp)
  have hhash : ∀ f ∈ report.files, s'.semanticFiles.lookup f.path = some f.contentHash := by
    intro f hf
    rw [hhashes f hf]
    split
    · rw [haccurate f hf]
    · next hskip =>
      -- a skipped file has its hash already
      by_contra hdiffers
      refine hskip (List.mem_map_of_mem ?_)
      unfold embeddedFiles
      generalize (if isStale own s then IndexStrategy.full else strategy) = selection
      cases selection with
      | full => exact hf
      | incremental => exact List.mem_filter.mpr ⟨hf, decide_eq_true hdiffers⟩
  refine ⟨fun f hf => ?_, hhash, fun path hpath => ?_⟩
  · obtain ⟨row, hrow, hcontent, hlanguage, hsymbols⟩ := hfit f hf
    rw [← hrendered.1] at hrow
    have hshape := hrendered.2 f.path row hrow (by rw [hhash f hf, hcontent])
    have hsymbolsFor : s'.symbolsFor f.path = headerSymbols x f := by
      rw [Store.symbolsFor, hrow, Option.elim_some, hsymbols, headerSymbols]
    rw [rowsAt_of_good hgood' f.path, hshape, hsymbolsFor, hcontent, hlanguage]
  · have hnot : path ∉ discoveredPaths report := by
      rw [discoveredPaths, hreport, List.append_nil, List.mem_map]
      rintro ⟨f, hf, hfpath⟩
      exact hpath f hf hfpath
    constructor
    · rw [rowsAt, List.filter_eq_nil_iff]
      intro c hc
      rw [decide_eq_true_eq]
      rintro rfl
      exact hnot (hwithin.rows c hc)
    · by_contra hsome
      obtain ⟨hash, hhash⟩ := Option.ne_none_iff_exists'.mp hsome
      exact hnot (hwithin.hashes path hash hhash)

theorem SemanticSettled.eq (h : SemanticSettled x setup own report s) (h' : SemanticSettled x setup own report s')
    (path : String) : rowsAt s path = rowsAt s' path ∧ s.semanticFiles.lookup path = s'.semanticFiles.lookup path := by
  by_cases hpath : ∃ f ∈ report.files, f.path = path
  · obtain ⟨f, hf, rfl⟩ := hpath
    rw [h.rows f hf, h'.rows f hf, h.hash f hf, h'.hash f hf]
    exact ⟨rfl, rfl⟩
  · have hno : ∀ f ∈ report.files, f.path ≠ path := fun f hf heq => hpath ⟨f, hf, heq⟩
    rw [(h.other path hno).1, (h'.other path hno).1, (h.other path hno).2, (h'.other path hno).2]
    exact ⟨rfl, rfl⟩

/-- A structural pass that returns without failed files, then a semantic one, over a report that tells the disk -/
def Indexed [DecidableEq φ] (x : Extraction ρ β) (setup : Setup φ ν) (own : φ) (report : DiscoveryReport)
    (strategy : IndexStrategy) (s s' : Store ρ β φ ν) : Prop :=
  ∃ (reads reads' : Reads) (faults faults' : List (Option Unit)) (w w' : World (Store ρ β φ ν) Unit),
    Accurate reads report ∧ Accurate reads' report ∧
    indexDiscoveryReport x reads report strategy ⟨s, faults⟩ = (.ok [], w) ∧
    semanticIndexDiscoveryReport setup reads' own report strategy ⟨w.state, faults'⟩ = (.ok [], w') ∧ s' = w'.state

theorem Indexed.settled [DecidableEq φ] (h : Indexed x setup own report strategy s s') (hcoherent : Coherent x setup s)
    (hdetected : Detected report.files) : SemanticSettled x setup own report s' := by
  obtain ⟨reads, reads', faults, faults', w, w', haccurate, haccurate', hstructural, hsemantic, rfl⟩ := h
  have hfit := (indexDiscoveryReport_fit hcoherent.rows hdetected haccurate).returned hstructural rfl
  have hkept : Coherent x setup w.state := by
    have hafter : w.state = (indexDiscoveryReport x reads report strategy ⟨s, faults⟩).2.state := by
      rw [hstructural]
    rw [hafter]
    exact ⟨(indexDiscoveryReport_keeps (rowsOk_reportKeeps hdetected)).holds hcoherent.rows faults,
      (indexDiscoveryReport_keeps rendered_reportKeeps).holds hcoherent.rendered faults,
      (indexDiscoveryReport_keeps sound_reportKeeps).holds hcoherent.sound faults⟩
  exact (semanticIndexDiscoveryReport_settled hkept hfit haccurate').returned hsemantic rfl

end Settle

/-- Histories whose semantic passes agree with the structural rows: incremental passes without failures leave the
chunk rows and hashes that full passes leave, wherever these start. -/
theorem semantic_incremental_converges [DecidableEq φ] (x : Extraction ρ β) (setup : Setup φ ν) (own : φ)
    (report : DiscoveryReport) (hdetected : Detected report.files) (events events₀ : List (IndexEvent φ))
    (hdiscovered : ∀ e ∈ events, e.Discovered) (hagree : AllAgree x setup ({} : Store ρ β φ ν) events)
    (hdiscovered₀ : ∀ e ∈ events₀, e.Discovered) (hagree₀ : AllAgree x setup ({} : Store ρ β φ ν) events₀)
    (s s₀ : Store ρ β φ ν)
    (hincremental : Indexed x setup own report .incremental (events.foldl (IndexEvent.after x setup) {}) s)
    (hfull : Indexed x setup own report .full (events₀.foldl (IndexEvent.after x setup) {}) s₀) (path : String) :
    rowsAt s path = rowsAt s₀ path ∧ s.semanticFiles.lookup path = s₀.semanticFiles.lookup path := by
  have hsettled := hincremental.settled (history_coherent hdiscovered hagree empty_coherent) hdetected
  have hsettled₀ := hfull.settled (history_coherent hdiscovered₀ hagree₀ empty_coherent) hdetected
  exact hsettled.eq hsettled₀ path

section Examples

/-- A header that is C as long as `x.cpp` does not include it -/
def headerReport : DiscoveryReport := { files := [⟨"a.h", .c, "1"⟩, ⟨"x.cpp", .cpp, "1"⟩] }

/-- The same header next to an edited `x.cpp` that includes it -/
def includedReport : DiscoveryReport := { files := [⟨"a.h", .cpp, "1"⟩, ⟨"x.cpp", .cpp, "2"⟩] }

def editedDisk : Reads := { oneDisk with disk := fun path => if path = "x.cpp" then "2" else "1" }

theorem reports_detected : Detected headerReport.files ∧ Detected includedReport.files :=
  ⟨⟨by decide, fun f hf => ⟨false, by revert f; decide⟩⟩,
    ⟨by decide, fun f hf => ⟨true, by revert f; decide⟩⟩⟩

theorem headerReport_detected : Detected headerReport.files := reports_detected.1

theorem headerReport_accurate : Accurate oneDisk headerReport :=
  List.forall_mem_cons.mpr ⟨rfl, List.forall_mem_cons.mpr ⟨rfl, nofun⟩⟩

def freshTable : List (IndexEvent String) := [⟨.openForModelRebuild "m" 3, oneDisk, []⟩]

/-- Both passes over the header as C; `x.cpp` is edited, and only a semantic pass sees it. -/
def routedHistory : List (IndexEvent String) :=
  freshTable ++ [⟨.structural (.index headerReport .full), oneDisk, []⟩, ⟨.semanticIndex headerReport .full "f", oneDisk, []⟩,
    ⟨.semanticIndex includedReport .full "f", editedDisk, []⟩]

def afterEvents (events : List (IndexEvent String)) : Store Unit Nat String String :=
  events.foldl (IndexEvent.after countingExtraction namingSetup) {}

def structuralPass (strategy : IndexStrategy) (s : Store Unit Nat String String) :
    Except Unit (List String) × World (Store Unit Nat String String) Unit :=
  indexDiscoveryReport countingExtraction oneDisk headerReport strategy ⟨s, []⟩

def semanticPass (strategy : IndexStrategy) (s : Store Unit Nat String String) :
    Except Unit (List String) × World (Store Unit Nat String String) Unit :=
  semanticIndexDiscoveryReport namingSetup oneDisk "f" headerReport strategy ⟨(structuralPass strategy s).2.state, []⟩

theorem indexed_of_ok {strategy : IndexStrategy} {s : Store Unit Nat String String}
    (hstructural : (structuralPass strategy s).1 = .ok []) (hsemantic : (semanticPass strategy s).1 = .ok []) :
    Indexed countingExtraction namingSetup "f" headerReport strategy s (semanticPass strategy s).2.state :=
  ⟨oneDisk, oneDisk, [], [], (structuralPass strategy s).2, (semanticPass strategy s).2, headerReport_accurate,
    headerReport_accurate, Prod.mk.eta.symm.trans (congrArg (·, (structuralPass strategy s).2) hstructural),
    Prod.mk.eta.symm.trans (congrArg (·, (semanticPass strategy s).2) hsemantic), rfl⟩

/-- Both passes over the header come to their end. -/
def Completes (strategy : IndexStrategy) (s : Store Unit Nat String String) : Prop :=
  (structuralPass strategy s).1 = .ok [] ∧ (semanticPass strategy s).1 = .ok []

instance (strategy : IndexStrategy) (s : Store Unit Nat String String) : Decidable (Completes strategy s) :=
  inferInstanceAs (Decidable (_ ∧ _))

theorem header_runs : Completes .full (afterEvents freshTable) ∧ Completes .incremental (afterEvents routedHistory) ∧
    (rowsAt (semanticPass .incremental (afterEvents routedHistory)).2.state "a.h").map ChunkRow.shape =
      [("cpp", "# a.h\ntext of 1", 1, 1)] ∧
    (rowsAt (semanticPass .full (afterEvents freshTable)).2.state "a.h").map ChunkRow.shape = [("c", "text of 1", 1, 1)] := by
  decide +kernel

theorem fullHeader_indexed : Indexed countingExtraction namingSetup "f" headerReport .full (afterEvents freshTable)
    (semanticPass .full (afterEvents freshTable)).2.state := indexed_of_ok header_runs.1.1 header_runs.1.2

/-- `x.cpp` is as before, and both incremental passes skip the header: its rows stay those of a C++ file. -/
theorem header_rows_keep_other_language : (∀ e ∈ routedHistory, e.Discovered) ∧
    Indexed countingExtraction namingSetup "f" headerReport .incremental (afterEvents routedHistory)
      (semanticPass .incremental (afterEvents routedHistory)).2.state ∧
    Indexed countingExtraction namingSetup "f" headerReport .full (afterEvents freshTable)
      (semanticPass .full (afterEvents freshTable)).2.state ∧
    (rowsAt (semanticPass .incremental (afterEvents routedHistory)).2.state "a.h").map ChunkRow.shape =
      [("cpp", "# a.h\ntext of 1", 1, 1)] ∧
    (rowsAt (semanticPass .full (afterEvents freshTable)).2.state "a.h").map ChunkRow.shape = [("c", "text of 1", 1, 1)] := by
  refine ⟨?_, indexed_of_ok header_runs.2.1.1 header_runs.2.1.2, fullHeader_indexed, header_runs.2.2⟩
  simp only [routedHistory, freshTable, List.cons_append, List.nil_append, List.mem_cons, List.not_mem_nil, or_false,
    forall_eq_or_imp, forall_eq]
  exact ⟨trivial, headerReport_detected, trivial, trivial⟩

/-- Both passes see the edit; the semantic pass over the old state of the disk is cut off. -/
def followedHistory : List (IndexEvent String) :=
  freshTable ++ [⟨.structural (.index includedReport .full), editedDisk, []⟩,
    ⟨.semanticIndex includedReport .full "f", editedDisk, []⟩, ⟨.semanticIndex headerReport .incremental "f", oneDisk, [some ()]⟩]

theorem includedReport_detected : Detected includedReport.files := reports_detected.2

theorem followedHistory_discovered : ∀ e ∈ followedHistory, e.Discovered := by
  simp only [followedHistory, freshTable, List.cons_append, List.nil_append, List.mem_cons, List.not_mem_nil, or_false,
    forall_eq_or_imp, forall_eq]
  exact ⟨trivial, includedReport_detected, trivial, trivial⟩

theorem sameLanguage_of_lookup {table : Table String (FileRow ρ β)}
    (h : ∀ f ∈ files, (table.lookup f.path).map (·.language) = some f.language) : ∀ f ∈ files, SameLanguage reads table f := by
  intro f hf _ row hrow _
  have hlanguage := h f hf
  rw [hrow, Option.map_some, Option.some_inj] at hlanguage
  exact hlanguage

theorem followed_runs : AllAgree countingExtraction namingSetup ({} : Store Unit Nat String String) followedHistory ∧
    Completes .incremental (afterEvents followedHistory) :=
  ⟨⟨trivial, trivial, sameLanguage_of_lookup (by decide), sameLanguage_of_lookup (by decide), trivial⟩,
    by decide +kernel⟩

theorem semantic_incremental_converges_followed :
    rowsAt (semanticPass .incremental (afterEvents followedHistory)).2.state "a.h" =
      rowsAt (semanticPass .full (afterEvents freshTable)).2.state "a.h" ∧
    (semanticPass .incremental (afterEvents followedHistory)).2.state.semanticFiles.lookup "a.h" =
      (semanticPass .full (afterEvents freshTable)).2.state.semanticFiles.lookup "a.h" := by
  have hfresh : ∀ e ∈ freshTable, e.Discovered := by
    simp only [freshTable, List.mem_singleton, forall_eq]
    trivial
  have hincremental : Indexed countingExtraction namingSetup "f" headerReport .incremental (afterEvents followedHistory)
      (semanticPass .incremental (afterEvents followedHistory)).2.state :=
    indexed_of_ok followed_runs.2.1 followed_runs.2.2
  exact semantic_incremental_converges countingExtraction namingSetup "f" headerReport headerReport_detected followedHistory
    freshTable followedHistory_discovered followed_runs.1 hfresh ⟨trivial, trivial⟩ _ _ hincremental fullHeader_indexed "a.h"

end Examples

end Graph
end CodeSage
