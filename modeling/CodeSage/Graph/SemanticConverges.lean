import CodeSage.Graph.SemanticAttestation

/-!
# CodeSage.Graph.SemanticConverges

The chunk rows of a path whose semantic hash is the hash of its structural row are what that row gives
(`Rendered`): every write of the structural row deletes the semantic hash. The one way around it is a semantic
pass that meets the content of the structural row under another language.
-/

namespace CodeSage
namespace Graph

open Lib Lib.Prog
open CodeSage.Parser (Language FileInfo)

variable {ρ β φ ν : Type} {x : Extraction ρ β} {setup : Setup φ ν} {reads : Reads} {own : φ} {reuse : Bool}
  {s s' : Store ρ β φ ν}

def rowsAt (s : Store ρ β φ ν) (path : String) : List (ChunkRow φ ν) := s.chunks.filter (·.filePath = path)

/-- What a chunk row shows of its file: language, text and lines -/
def ChunkRow.shape (c : ChunkRow φ ν) : String × String × Nat × Nat := (c.language, c.text, c.startLine, c.endLine)

/-- A file as it is stored when its symbols are those of its content -/
def renderFile (setup : Setup φ ν) (f : FileInfo) (symbols : List SymbolRow) : ChunkedFile :=
  if shouldAugment (languageName f.language) then augmentChunks (chunkOne setup f) symbols else chunkOne setup f

def ChunkedFile.shapes (cf : ChunkedFile) : List (String × String × Nat × Nat) :=
  cf.chunks.map fun chunk => (cf.language, chunk.1, chunk.2.1, chunk.2.2)

def Rendered (setup : Setup φ ν) (s : Store ρ β φ ν) : Prop :=
  ∀ path row, s.files.lookup path = some row → s.semanticFiles.lookup path = some row.contentHash →
    (rowsAt s path).map ChunkRow.shape = (renderFile setup ⟨path, row.language, row.contentHash⟩ (s.symbolsFor path)).shapes

section Structural

/-- The rows of a path and its hash stay, and its structural row keeps content, language and symbols. -/
structure SameAt (s s' : Store ρ β φ ν) (path : String) : Prop where
  rows : rowsAt s' path = rowsAt s path
  file : ∀ row', s'.files.lookup path = some row' → ∃ row, s.files.lookup path = some row ∧
    row'.contentHash = row.contentHash ∧ row'.language = row.language ∧ row'.symbols = row.symbols

/-- Where a path changes otherwise, its hash goes, or its structural row. -/
theorem Rendered.step (h : Rendered setup s)
    (hstep : ∀ path, s'.files.lookup path = none ∨ s'.semanticFiles.lookup path = none ∨
      (s'.semanticFiles.lookup path = s.semanticFiles.lookup path ∧ SameAt s s' path)) : Rendered setup s' := by
  intro path row' hrow' hhash'
  rcases hstep path with hnone | hnone | ⟨hhash, hsame⟩
  · rw [hnone] at hrow'
    cases hrow'
  · rw [hnone] at hhash'
    cases hhash'
  · obtain ⟨row, hrow, hcontent, hlanguage, hsymbols⟩ := hsame.file row' hrow'
    have hsymbolsFor : s'.symbolsFor path = s.symbolsFor path := by
      rw [Store.symbolsFor, Store.symbolsFor, hrow', hrow, Option.elim_some, Option.elim_some, hsymbols]
    rw [hsame.rows, hcontent, hlanguage, hsymbolsFor]
    exact h path row hrow (by rw [← hhash, hhash', hcontent])

theorem rendered_mapFiles {f : String → FileRow ρ β → FileRow ρ β}
    (hf : ∀ path row, (f path row).contentHash = row.contentHash ∧ (f path row).language = row.language ∧
      (f path row).symbols = row.symbols) (h : Rendered setup s) : Rendered setup (s.mapFiles f) := by
  refine h.step fun path => .inr (.inr ⟨rfl, rfl, fun row' hrow' => ?_⟩)
  rw [Store.mapFiles, Table.lookup_mapRows] at hrow'
  obtain ⟨row, hrow, rfl⟩ := Option.map_eq_some_iff.mp hrow'
  exact ⟨row, hrow, hf path row⟩

theorem rendered_markStale {mark : String} {picks : String → FileRow ρ β → Bool} (h : Rendered setup s) :
    Rendered setup (markStale mark picks s) := by
  refine rendered_mapFiles (fun path row => ?_) h
  split <;> exact ⟨rfl, rfl, rfl⟩

theorem rendered_refresh (h : Rendered setup s) : Rendered setup (refreshedBoundaries x reads s) := by
  refine rendered_mapFiles (fun path row => ?_) h
  split <;> exact ⟨rfl, rfl, rfl⟩

theorem rendered_writeOne {p : ParsedFile ρ β} (h : Rendered setup s) : Rendered setup (writeOne s p) := by
  refine h.step fun path => ?_
  by_cases hpath : path = p.path
  · exact .inr (.inl (by rw [writeOne, lookup_erase, if_pos hpath]))
  · refine .inr (.inr ⟨by rw [writeOne, lookup_erase, if_neg hpath], rfl, fun row hrow => ?_⟩)
    rw [writeOne, lookup_insert, if_neg hpath] at hrow
    exact ⟨row, hrow, rfl, rfl, rfl⟩

theorem rendered_removeFile (path : String) (h : Rendered setup s) : Rendered setup (s.removeFile path) := by
  refine h.step fun p => ?_
  by_cases hpath : p = path
  · exact .inl (by rw [Store.removeFile, lookup_erase, if_pos hpath])
  · refine .inr (.inr ⟨by rw [Store.removeFile, lookup_erase, if_neg hpath], ?_, fun row hrow => ?_⟩)
    · rw [rowsAt, Store.removeFile, List.filter_filter]
      refine List.filter_congr fun c _ => ?_
      by_cases hc : c.filePath = p
      · simp [hc, hpath]
      · simp [hc]
    · rw [Store.removeFile, lookup_erase, if_neg hpath] at hrow
      exact ⟨row, hrow, rfl, rfl, rfl⟩

theorem rendered_removeStructuralFile (path : String) (h : Rendered setup s) :
    Rendered setup (s.removeStructuralFile path) := by
  refine h.step fun p => ?_
  by_cases hpath : p = path
  · exact .inl (by rw [Store.removeStructuralFile, lookup_erase, if_pos hpath])
  · refine .inr (.inr ⟨rfl, rfl, fun row hrow => ?_⟩)
    rw [Store.removeStructuralFile, lookup_erase, if_neg hpath] at hrow
    exact ⟨row, hrow, rfl, rfl, rfl⟩

theorem rendered_foldl {f : Store ρ β φ ν → String → Store ρ β φ ν} (hf : ∀ s path, Rendered setup s → Rendered setup (f s path))
    (paths : List String) (h : Rendered setup s) : Rendered setup (paths.foldl f s) := by
  induction paths generalizing s with
  | nil => exact h
  | cons path paths ih => exact ih (hf s path h)

variable {report : DiscoveryReport} {strategy : IndexStrategy} {files : List FileInfo} {paths : List String}

theorem rendered_reportKeeps : ReportKeeps x reads report strategy (Rendered setup (ρ := ρ) (β := β)) where
  header _ h := rendered_markStale h
  java _ _ _ _ h := rendered_markStale h
  orphans _ _ _ h := rendered_foldl (fun _ => rendered_removeFile) _ h
  write _ _ _ _ _ _ h := rendered_writeOne h
  purge _ _ _ _ _ h := rendered_foldl (fun _ => rendered_removeStructuralFile) _ h

theorem rendered_filesKeep : FilesKeep x reads files (Rendered setup (ρ := ρ) (β := β)) where
  header _ h := rendered_markStale h
  java _ _ h := rendered_markStale h
  refresh _ _ h := rendered_refresh h
  write _ _ _ _ h := rendered_writeOne h

theorem rendered_removalKeeps : RemovalKeeps x reads paths (Rendered setup (ρ := ρ) (β := β)) where
  header _ h := rendered_markStale h
  remove _ h := rendered_foldl (fun _ => rendered_removeFile) _ h
  java _ _ _ _ h := rendered_markStale h
  refresh _ _ _ _ h := rendered_refresh h

end Structural

section Rows

variable {selected : List FileInfo} {f : FileInfo} {row : FileRow ρ β}

theorem chunkRow_shape {cf : ChunkedFile} {chunk : String × Nat × Nat} :
    (chunkRow setup own reuse s cf chunk).shape = (cf.language, chunk.1, chunk.2.1, chunk.2.2) := by
  unfold chunkRow
  split <;> rfl

theorem mem_augmentPaths (hrow : s.files.lookup f.path = some row) (hhash : row.contentHash = f.contentHash)
    (hf : f ∈ selected) (hsame : ∀ g ∈ selected, g.path = f.path → g = f) :
    f.path ∈ augmentPaths s selected ↔ shouldAugment (languageName f.language) = true := by
  rw [augmentPaths, List.mem_map]
  constructor
  · rintro ⟨g, hg, hpath⟩
    obtain ⟨hg, haugment⟩ := List.mem_filter.mp hg
    obtain rfl := hsame g hg hpath
    exact (Bool.and_eq_true_iff.mp haugment).1
  · intro haugment
    refine ⟨f, List.mem_filter.mpr ⟨hf, ?_⟩, rfl⟩
    rw [haugment, hrow, Option.map_some, hhash]
    exact decide_eq_true rfl

/-- A file whose structural row has its content and language is stored as that row gives it. -/
theorem rowsFor_shape (hrow : s.files.lookup f.path = some row) (hhash : row.contentHash = f.contentHash)
    (hf : f ∈ selected) (hsame : ∀ g ∈ selected, g.path = f.path → g = f) :
    (rowsFor setup own reuse s selected f.path).map ChunkRow.shape = (renderFile setup f (s.symbolsFor f.path)).shapes := by
  have haugmented : (if shouldAugment (chunkOne setup f).language && (chunkOne setup f).path ∈ augmentPaths s selected
      then augmentChunks (chunkOne setup f) (s.symbolsFor (chunkOne setup f).path) else chunkOne setup f) =
      renderFile setup f (s.symbolsFor f.path) := by
    rw [renderFile]
    change (if shouldAugment (languageName f.language) && f.path ∈ augmentPaths s selected
      then augmentChunks (chunkOne setup f) (s.symbolsFor f.path) else chunkOne setup f) = _
    cases haugment : shouldAugment (languageName f.language) with
    | true => simp [(mem_augmentPaths hrow hhash hf hsame).mpr haugment]
    | false => simp
  have hlanguage : (renderFile setup f (s.symbolsFor f.path)).language = languageName f.language := by
    rw [renderFile]
    split <;> rfl
  rw [rowsFor]
  split
  · next cf hcf =>
    have hmem := List.mem_reverse.mp (List.mem_of_find?_eq_some hcf)
    have hpath : cf.path = f.path := by simpa using List.find?_some hcf
    obtain ⟨cf₀, hcf₀, rfl⟩ := List.mem_map.mp hmem
    obtain ⟨hcf₀, -⟩ := List.mem_filter.mp hcf₀
    obtain ⟨g, hg, rfl⟩ := List.mem_map.mp hcf₀
    have hgpath : g.path = f.path := by
      split at hpath <;> exact hpath
    obtain rfl := hsame g hg hgpath
    rw [haugmented, List.map_map, ChunkedFile.shapes]
    exact List.map_congr_left fun chunk _ => chunkRow_shape
  · next hnone =>
    -- no chunks at all
    have hempty : (chunkOne setup f).chunks = [] := by
      by_contra hchunks
      have hin : chunkOne setup f ∈ (selected.map (chunkOne setup)).filter fun cf => !cf.chunks.isEmpty :=
        List.mem_filter.mpr ⟨List.mem_map_of_mem hf, by simpa using hchunks⟩
      have hmem := List.mem_map_of_mem (f := fun cf => if shouldAugment cf.language && cf.path ∈ augmentPaths s selected
        then augmentChunks cf (s.symbolsFor cf.path) else cf) hin
      simp only [haugmented] at hmem
      have hnot := List.find?_eq_none.mp hnone _ (List.mem_reverse.mpr hmem)
      refine hnot (decide_eq_true ?_)
      rw [renderFile]
      split <;> rfl
    have hshapes : (renderFile setup f (s.symbolsFor f.path)).shapes = [] := by
      rw [ChunkedFile.shapes, renderFile]
      split
      · simp [augmentChunks, hempty]
      · simp [hempty]
    rw [hshapes, List.map_nil]

theorem rowsAt_writeSemantic {rows : String → List (ChunkRow φ ν)} (hrows : ∀ path, ∀ c ∈ rows path, c.filePath = path)
    (path : String) : rowsAt (writeSemantic rows s f) path = if path = f.path then rows path else rowsAt s path := by
  rw [rowsAt, writeSemantic, List.filter_append, List.filter_filter]
  by_cases hpath : path = f.path
  · subst hpath
    rw [if_pos rfl, List.filter_eq_self.mpr fun c hc => decide_eq_true (hrows f.path c hc)]
    convert List.nil_append _
    rw [List.filter_eq_nil_iff]
    intro c _
    simp
  · have hnew : (rows f.path).filter (·.filePath = path) = [] := by
      refine List.filter_eq_nil_iff.mpr fun c hc => ?_
      rw [hrows f.path c hc, decide_eq_true_eq]
      exact fun heq => hpath heq.symm
    rw [if_neg hpath, hnew, List.append_nil, rowsAt]
    refine List.filter_congr fun c _ => ?_
    by_cases hc : c.filePath = path
    · simp [hc, hpath]
    · simp [hc]

theorem rowsFor_path {path : String} : ∀ c ∈ rowsFor setup own reuse s selected path, c.filePath = path := by
  intro c hc
  unfold rowsFor at hc
  split at hc
  · next cf hcf =>
    obtain ⟨chunk, -, rfl⟩ := List.mem_map.mp hc
    exact chunkRow_path.trans (by simpa using List.find?_some hcf)
  · cases hc

end Rows

section Keeping

variable {P : Store ρ β φ ν → Prop} {files : List FileInfo}

/-- Every change a run of the embedding loop makes keeps `P`. -/
structure EmbedKeeps (setup : Setup φ ν) (reads : Reads) (own : φ) (reuse : Bool) (files : List FileInfo)
    (P : Store ρ β φ ν → Prop) : Prop where
  forget : ∀ s path, P s → P (s.forgetSemantic path)
  log : ∀ s reused, P s → P (logReuses own reused s)
  write : ∀ s₀ s selected, P s₀ →
    (∀ f ∈ selected, ∃ g ∈ files, reads.unreadable g.path = false ∧ f = readInfo reads g) →
    ∀ f ∈ selected, P s → P (writeSemantic (rowsFor setup own reuse s₀ selected) s f)

theorem foldl_keeps {α : Type} {g : Store ρ β φ ν → α → Store ρ β φ ν} {items : List α}
    (hg : ∀ a ∈ items, ∀ s, P s → P (g s a)) (hs : P s) : P (items.foldl g s) := by
  induction items generalizing s with
  | nil => exact hs
  | cons a items ih =>
    exact ih (fun b hb => hg b (List.mem_cons_of_mem _ hb)) (hg a List.mem_cons_self s hs)

theorem mem_of_slices {α : Type} {n : Nat} {xs : List α} {done rest : List (List α)} {batch : List α}
    (h : slices n xs = done ++ batch :: rest) {a : α} (ha : a ∈ batch) : a ∈ xs := by
  rw [← slices_flatten n xs, h]
  simp [ha]

theorem embedAndWrite_keeps (hk : EmbedKeeps setup reads own reuse files P) {selected : List FileInfo}
    (hselected : ∀ f ∈ selected, ∃ g ∈ files, reads.unreadable g.path = false ∧ f = readInfo reads g) :
    Keeps P (embedAndWrite setup own reuse selected) := by
  rw [embedAndWrite]
  split
  · exact Keeps.pure
  refine Keeps.state fun s₀ hs₀ => Ends.update ?_
  have hlog := hk.log s₀ (reusedChunks setup reuse s₀ selected) hs₀
  refine Ends.bind (Q := fun _ s' => P s') (Ends.whenever (fun _ => Ends.call hlog fun _ => hlog) fun _ => hlog) ?_
  intro _ s₁ hs₁
  refine Ends.each (I := fun _ s' => P s') hs₁ fun done batch rest s' hslices hs' => ?_
  refine Ends.commit (foldl_keeps (fun f hf s hs => ?_) hs') fun _ => hs'
  exact hk.write s₀ s selected hs₀ hselected f (mem_of_slices hslices hf) hs

theorem embedFiles_keeps (hk : EmbedKeeps setup reads own reuse files P) (purge : Bool) (failed : List String) :
    Keeps P (embedFiles setup reads own reuse purge failed files) := by
  have hcall : Keeps P (call : Pass ρ β φ ν Unit) := fun s hs => Ends.call hs fun _ => hs
  refine Keeps.bind hcall fun _ => Keeps.bind hcall fun _ => fun s hs => ?_
  refine Ends.fold (I := fun _ _ s' => P s') hs fun done batch rest acc s' hslices hs' => ?_
  refine (Keeps.bind (Keeps.whenever fun _ => Keeps.commit fun s hs => ?_) fun _ =>
    Keeps.bind (embedAndWrite_keeps hk fun f hf => ?_) fun _ => Keeps.pure) s' hs'
  · exact foldl_keeps (fun path _ s hs => hk.forget s path hs) hs
  · obtain ⟨g, hg, rfl⟩ := List.mem_map.mp hf
    obtain ⟨hg, hread⟩ := List.mem_filter.mp hg
    exact ⟨g, mem_of_slices hslices hg, by simpa using hread, rfl⟩

theorem embedSelected_keeps {report : DiscoveryReport} {selection : IndexStrategy}
    (hk : EmbedKeeps setup reads own reuse files P) :
    Keeps P (embedSelected setup reads own reuse report selection files) := by
  rw [embedSelected]
  split
  · exact Keeps.pure
  · exact embedFiles_keeps hk _ _

end Keeping

section Written

/-- The content that was read is that of the structural row only under the language of that row. -/
def SameLanguage (reads : Reads) (files : Table String (FileRow ρ β)) (f : FileInfo) : Prop :=
  reads.unreadable f.path = false → ∀ row, files.lookup f.path = some row → row.contentHash = reads.disk f.path →
    row.language = f.language

variable {table : Table String (FileRow ρ β)} {files : List FileInfo}

/-- The structural rows `table`, with chunk rows that fit them -/
def RenderedUnder (setup : Setup φ ν) (table : Table String (FileRow ρ β)) (s : Store ρ β φ ν) : Prop :=
  s.files = table ∧ Rendered setup s

theorem rendered_forget (path : String) (h : Rendered setup s) : Rendered setup (s.forgetSemantic path) := by
  refine h.step fun p => ?_
  by_cases hpath : p = path
  · refine .inr (.inl ?_)
    rw [Store.forgetSemantic, Store.deleteSemanticHash, Store.deleteChunks, lookup_erase, if_pos hpath]
  · refine .inr (.inr ⟨?_, ?_, fun row hrow => ⟨row, hrow, rfl, rfl, rfl⟩⟩)
    · rw [Store.forgetSemantic, Store.deleteSemanticHash, Store.deleteChunks, lookup_erase, if_neg hpath]
    · rw [rowsAt, Store.forgetSemantic, Store.deleteSemanticHash, Store.deleteChunks, List.filter_filter]
      refine List.filter_congr fun c _ => ?_
      by_cases hc : c.filePath = p
      · simp [hc, hpath]
      · simp [hc]

theorem renderedUnder_embedKeeps (hsame : ∀ f ∈ files, SameLanguage reads table f) :
    EmbedKeeps setup reads own reuse files (RenderedUnder setup table (φ := φ) (ν := ν)) where
  forget _ path h := ⟨h.1, rendered_forget path h.2⟩
  log _ _ h := h
  write s₀ s selected h₀ hselected f hf h := by
    refine ⟨h.1, fun path row hrow hhash => ?_⟩
    change s.files.lookup path = some row at hrow
    have hsymbols : (writeSemantic (rowsFor setup own reuse s₀ selected) s f).symbolsFor path = s₀.symbolsFor path := by
      rw [Store.symbolsFor, Store.symbolsFor, writeSemantic, h.1, h₀.1]
    rw [rowsAt_writeSemantic (fun _ => rowsFor_path), hsymbols]
    rw [writeSemantic, lookup_insert] at hhash
    split
    · next hpath =>
      rw [if_pos hpath, Option.some_inj] at hhash
      subst hpath
      rw [h.1] at hrow
      -- the structural row has the content that was read, so it has its language
      have heq : ∀ g ∈ selected, g.path = f.path → g = ⟨f.path, row.language, row.contentHash⟩ := by
        intro g hg hpath
        obtain ⟨f', hf', hread, rfl⟩ := hselected f hf
        obtain ⟨g', hg', hread', rfl⟩ := hselected g hg
        simp only [readInfo] at hpath hhash hrow ⊢
        have hlanguage := hsame g' hg' hread' row (by rw [hpath]; exact hrow) (by rw [hpath]; exact hhash.symm)
        rw [← hhash, hlanguage, hpath]
      have hf' := heq f hf rfl
      have hgs : ∀ g ∈ selected, g.path = f.path → g = f := fun g hg hpath => (heq g hg hpath).trans hf'.symm
      have hrow₀ : s₀.files.lookup f.path = some row := by
        rw [h₀.1]
        exact hrow
      rw [rowsFor_shape hrow₀ hhash.symm hf hgs, ← hf']
    · next hpath =>
      rw [if_neg hpath] at hhash
      have hsymbols' : s₀.symbolsFor path = s.symbolsFor path := by
        rw [Store.symbolsFor, Store.symbolsFor, h.1, h₀.1]
      rw [hsymbols']
      exact h.2 path row hrow hhash

end Written

section Hashes

variable {selected batch files : List FileInfo}

theorem lookup_foldl_writeSemantic {rows : String → List (ChunkRow φ ν)}
    (hdisk : ∀ f ∈ selected, f.contentHash = reads.disk f.path) (path : String) :
    (selected.foldl (writeSemantic rows) s).semanticFiles.lookup path =
      if path ∈ selected.map (·.path) then some (reads.disk path) else s.semanticFiles.lookup path := by
  induction selected generalizing s with
  | nil => rfl
  | cons f selected ih =>
    rw [List.foldl_cons, ih fun g hg => hdisk g (List.mem_cons_of_mem _ hg), writeSemantic, lookup_insert, List.map_cons]
    by_cases hmem : path ∈ selected.map (·.path)
    · rw [if_pos hmem, if_pos (List.mem_cons_of_mem _ hmem)]
    · rw [if_neg hmem]
      by_cases hpath : path = f.path
      · rw [if_pos hpath, if_pos (by rw [hpath]; exact List.mem_cons_self), hdisk f List.mem_cons_self, hpath]
      · rw [if_neg hpath, if_neg]
        rw [List.mem_cons, not_or]
        exact ⟨hpath, hmem⟩

/-- The files written so far have the hash of what was read. -/
def HashedBy (reads : Reads) (s : Store ρ β φ ν) (done : List FileInfo) (s' : Store ρ β φ ν) : Prop :=
  ∀ path, s'.semanticFiles.lookup path =
    if path ∈ done.map (·.path) then some (reads.disk path) else s.semanticFiles.lookup path

theorem HashedBy.nil : HashedBy reads s [] s := fun _ => rfl

theorem HashedBy.trans {s₁ : Store ρ β φ ν} {done : List FileInfo} (h : HashedBy reads s done s₁)
    (h' : HashedBy reads s₁ selected s') : HashedBy reads s (done ++ selected) s' := by
  intro path
  rw [h' path, h path, List.map_append]
  by_cases hselected : path ∈ selected.map (·.path)
  · rw [if_pos hselected, if_pos (List.mem_append_right _ hselected)]
  · by_cases hdone : path ∈ done.map (·.path)
    · rw [if_neg hselected, if_pos hdone, if_pos (List.mem_append_left _ hdone)]
    · rw [if_neg hselected, if_neg hdone, if_neg]
      rw [List.mem_append, not_or]
      exact ⟨hdone, hselected⟩

theorem embedAndWrite_hashed (hdisk : ∀ f ∈ selected, f.contentHash = reads.disk f.path) :
    Ends (embedAndWrite setup own reuse selected) s (fun _ s' => HashedBy reads s selected s') (fun _ _ => True) := by
  rw [embedAndWrite]
  split
  · next hempty =>
    rw [List.isEmpty_iff] at hempty
    exact Ends.pure (hempty ▸ HashedBy.nil)
  refine Ends.state (Ends.update ?_)
  refine Ends.bind (Q := fun _ s' => HashedBy reads s [] s')
    (Ends.whenever (fun _ => Ends.call HashedBy.nil fun _ => trivial) fun _ => HashedBy.nil) fun _ s₁ h₁ => ?_
  generalize rowsFor setup own reuse s selected = rows
  have hloop : Ends (writeSemanticUpdates rows selected) s₁
      (fun _ s' => HashedBy reads s (slices COMMIT_BATCH_SIZE selected).flatten s') (fun _ _ => True) := by
    refine Ends.each (I := fun (done : List (List FileInfo)) s' => HashedBy reads s done.flatten s') h₁ ?_
    intro done batch rest s' hslices h'
    refine Ends.commit ?_ fun _ => trivial
    have hbatch : HashedBy reads s' batch (batch.foldl (writeSemantic rows) s') :=
      lookup_foldl_writeSemantic fun f hf => hdisk f (mem_of_slices hslices hf)
    simpa using h'.trans hbatch
  rwa [slices_flatten] at hloop

theorem processSemanticBatch_hashed {purge : Bool} {failed : List String} :
    Ends (processSemanticBatch setup reads own reuse purge failed batch) s
      (fun failed' s' => failed' = [] → failed = [] ∧ HashedBy reads s batch s') (fun _ _ => True) := by
  let unreadable := (batch.filter fun f => reads.unreadable f.path).map (·.path)
  let selected := (batch.filter fun f => !reads.unreadable f.path).map (readInfo reads)
  have hdisk : ∀ f ∈ selected, f.contentHash = reads.disk f.path := by
    intro f hf
    obtain ⟨g, -, rfl⟩ := List.mem_map.mp hf
    rfl
  refine Ends.bind (Q := fun _ s₁ => unreadable = [] → s₁ = s) ?_ fun _ s₁ hs₁ => ?_
  · refine Ends.whenever (fun hcond => Ends.commit (fun hempty => ?_) fun _ => trivial) fun _ _ => rfl
    change (purge && !unreadable.isEmpty) = true at hcond
    rw [hempty] at hcond
    simp at hcond
  · refine Ends.bind (embedAndWrite_hashed hdisk) fun _ s₂ h₂ => Ends.pure fun hnone => ?_
    obtain ⟨hfailed, hunreadable⟩ := List.append_eq_nil_iff.mp hnone
    obtain rfl := hs₁ hunreadable
    -- nothing was unreadable, so the whole batch was written
    have hall : (batch.filter fun f => !reads.unreadable f.path) = batch := by
      rw [List.map_eq_nil_iff, List.filter_eq_nil_iff] at hunreadable
      exact List.filter_eq_self.mpr fun f hf => by simpa using hunreadable f hf
    have hpaths : selected.map (·.path) = batch.map (·.path) := by
      simp only [selected, hall, List.map_map]
      rfl
    exact ⟨hfailed, fun path => hpaths ▸ h₂ path⟩

theorem embedFiles_hashed {purge : Bool} {failed : List String} :
    Ends (embedFiles setup reads own reuse purge failed files) s
      (fun failed' s' => failed' = [] → failed = [] ∧ HashedBy reads s files s') (fun _ _ => True) := by
  have hcall : Ends (call : Pass ρ β φ ν Unit) s (fun _ s' => s' = s) (fun _ _ => True) := Ends.call rfl fun _ => trivial
  have hloop : Ends (fold (processSemanticBatch setup reads own reuse purge) failed (slices COMMIT_BATCH_SIZE files)) s
      (fun failed' s' => failed' = [] → failed = [] ∧ HashedBy reads s (slices COMMIT_BATCH_SIZE files).flatten s')
      (fun _ _ => True) := by
    refine Ends.fold (I := fun (done : List (List FileInfo)) acc s' => acc = [] → failed = [] ∧
      HashedBy reads s done.flatten s') (fun hnone => ⟨hnone, HashedBy.nil⟩) ?_
    intro done batch rest acc s' _ h'
    refine processSemanticBatch_hashed.mono (fun failed' s'' h'' hnone => ?_) fun _ _ he => he
    obtain ⟨hacc, hbatch⟩ := h'' hnone
    obtain ⟨hfailed, hdone⟩ := h' hacc
    exact ⟨hfailed, by simpa using hdone.trans hbatch⟩
  rw [slices_flatten] at hloop
  refine Ends.bind hcall ?_
  rintro _ _ rfl
  refine Ends.bind hcall ?_
  rintro _ _ rfl
  exact hloop

theorem embedSelected_hashed {report : DiscoveryReport} {selection : IndexStrategy} :
    Ends (embedSelected setup reads own reuse report selection files) s
      (fun failed' s' => failed' = [] → report.failedPaths = [] ∧ HashedBy reads s files s') (fun _ _ => True) := by
  rw [embedSelected]
  split
  · next hempty =>
    rw [List.isEmpty_iff] at hempty
    exact Ends.pure fun hnone => ⟨hnone, hempty ▸ HashedBy.nil⟩
  · exact embedFiles_hashed

end Hashes

section Orphans

variable {report : DiscoveryReport}

theorem lookup_foldl_deleteSemanticHash (paths : List String) (s : Store ρ β φ ν) (path : String) :
    (paths.foldl Store.deleteSemanticHash s).semanticFiles.lookup path =
      if path ∈ paths then none else s.semanticFiles.lookup path := by
  induction paths generalizing s with
  | nil => rfl
  | cons p paths ih =>
    rw [List.foldl_cons, ih, Store.deleteSemanticHash, lookup_erase]
    by_cases hmem : path ∈ paths
    · simp [hmem]
    · by_cases hp : path = p <;> simp [hmem, hp]

theorem foldl_deleteSemanticHash_files (paths : List String) (s : Store ρ β φ ν) :
    (paths.foldl Store.deleteSemanticHash s).files = s.files := by
  induction paths generalizing s with
  | nil => rfl
  | cons p paths ih => exact ih (s.deleteSemanticHash p)

theorem foldl_deleteChunks_files (paths : List String) (s : Store ρ β φ ν) :
    (paths.foldl Store.deleteChunks s).files = s.files ∧
    (paths.foldl Store.deleteChunks s).semanticFiles = s.semanticFiles := by
  induction paths generalizing s with
  | nil => exact ⟨rfl, rfl⟩
  | cons p paths ih => exact ih (s.deleteChunks p)

theorem rowsAt_foldl_deleteChunks (paths : List String) (s : Store ρ β φ ν) {path : String} (hpath : path ∉ paths) :
    rowsAt (paths.foldl Store.deleteChunks s) path = rowsAt s path := by
  induction paths generalizing s with
  | nil => rfl
  | cons p paths ih =>
    rw [List.mem_cons, not_or] at hpath
    rw [List.foldl_cons, ih _ hpath.2, rowsAt, Store.deleteChunks, List.filter_filter, rowsAt]
    refine List.filter_congr fun c _ => ?_
    by_cases hc : c.filePath = path
    · simp [hc, hpath.1]
    · simp [hc]

/-- The rows and hashes of paths that were not discovered are gone. -/
def withoutOrphans (before : Store ρ β φ ν) (report : DiscoveryReport) (s : Store ρ β φ ν) : Store ρ β φ ν :=
  (orphanSemanticPaths before report).foldl Store.deleteSemanticHash ((orphanChunks before report).foldl Store.deleteChunks s)

theorem removeSemanticOrphans_spec {before : Store ρ β φ ν} {E : Store ρ β φ ν → Prop} (hs : E s) :
    Ends (removeSemanticOrphans (orphanChunks before report) (orphanSemanticPaths before report)) s
      (fun _ s' => s' = withoutOrphans before report s) (fun _ s' => E s') := by
  refine Ends.whenever (fun _ => Ends.commit rfl fun _ => hs) fun hno => ?_
  rw [Bool.or_eq_false_iff, Bool.not_eq_false', Bool.not_eq_false', List.isEmpty_iff, List.isEmpty_iff] at hno
  rw [withoutOrphans, hno.1, hno.2]
  rfl

/-- Only discovered paths have rows or a hash. -/
structure Within (report : DiscoveryReport) (s : Store ρ β φ ν) : Prop where
  rows : ∀ c ∈ s.chunks, c.filePath ∈ discoveredPaths report
  hashes : ∀ path hash, s.semanticFiles.lookup path = some hash → path ∈ discoveredPaths report

variable {before : Store ρ β φ ν}

theorem mem_orphanSemanticPaths {path hash : String} (hhash : before.semanticFiles.lookup path = some hash)
    (hpath : path ∉ discoveredPaths report) : path ∈ orphanSemanticPaths before report := by
  refine List.mem_filter.mpr ⟨?_, decide_eq_true hpath⟩
  rw [← AList.mem_keys, mem_iff_lookup, hhash]
  exact Option.some_ne_none hash

theorem not_orphan {path : String} (hpath : path ∈ discoveredPaths report) :
    path ∉ orphanChunks before report ∧ path ∉ orphanSemanticPaths before report := by
  constructor <;>
  · intro hmem
    exact of_decide_eq_true (List.mem_filter.mp hmem).2 hpath

theorem lookup_withoutOrphans (path : String) : (withoutOrphans before report s).semanticFiles.lookup path =
    if path ∈ orphanSemanticPaths before report then none else s.semanticFiles.lookup path := by
  rw [withoutOrphans, lookup_foldl_deleteSemanticHash, (foldl_deleteChunks_files _ s).2]

theorem withoutOrphans_chunks : (withoutOrphans before report s).chunks =
    ((orphanChunks before report).foldl Store.deleteChunks s).chunks :=
  (foldl_deleteSemanticHash_rest _ _).1

theorem withoutOrphans_files : (withoutOrphans before report s).files = s.files := by
  rw [withoutOrphans, foldl_deleteSemanticHash_files, (foldl_deleteChunks_files _ s).1]

theorem withoutOrphans_within (hchunks : s.chunks = before.chunks) (hhashes : s.semanticFiles = before.semanticFiles) :
    Within report (withoutOrphans before report s) := by
  constructor
  · intro c hc
    rw [withoutOrphans_chunks] at hc
    obtain ⟨hc, hnot⟩ := (foldl_deleteChunks_mem _ s c).mp hc
    by_contra hpath
    exact hnot (List.mem_filter.mpr ⟨List.mem_map_of_mem (hchunks ▸ hc), decide_eq_true hpath⟩)
  · intro path hash hhash
    rw [lookup_withoutOrphans] at hhash
    obtain ⟨hnot, hhash⟩ := lookup_of_ite hhash
    by_contra hpath
    exact hnot (mem_orphanSemanticPaths (hhashes ▸ hhash) hpath)

theorem withoutOrphans_rendered (hhashes : s.semanticFiles = before.semanticFiles) (h : Rendered setup s) :
    Rendered setup (withoutOrphans before report s) := by
  refine h.step fun path => ?_
  rw [lookup_withoutOrphans, withoutOrphans_files]
  by_cases hpath : path ∈ discoveredPaths report
  · obtain ⟨hchunk, hhash⟩ : path ∉ orphanChunks before report ∧ path ∉ orphanSemanticPaths before report :=
      not_orphan hpath
    refine .inr (.inr ⟨by rw [if_neg hhash], ?_, fun row hrow => ?_⟩)
    · rw [rowsAt, withoutOrphans_chunks]
      exact rowsAt_foldl_deleteChunks _ s hchunk
    · rw [withoutOrphans_files] at hrow
      exact ⟨row, hrow, rfl, rfl, rfl⟩
  · -- a path that was not discovered has no hash left
    refine .inr (.inl ?_)
    split
    · rfl
    · next hnot =>
      by_contra hhash
      obtain ⟨hash, hhash⟩ := Option.ne_none_iff_exists'.mp hhash
      exact hnot (mem_orphanSemanticPaths (hhashes ▸ hhash) hpath)

end Orphans

end Graph
end CodeSage
