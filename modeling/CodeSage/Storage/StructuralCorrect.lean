import Mathlib.Data.List.Induction
import CodeSage.Storage.Structural

/-!
# CodeSage.Storage.StructuralCorrect

What the writers of the index leave. Writing a file whose path is not in the tables extends them by the
rows of the file, whatever ids it was given; removing files takes away what belongs to them.
-/

namespace CodeSage
namespace Storage

section Inserted

variable {ι α β κ : Type} {id : Int} {rows rows' : List (Row ι α)} {cs : List α}

theorem Appends.cons {row : Row ι α} (hrow : row.fileId = id) (h : Appends id cs (rows ++ [row]) rows') :
    Appends id (row.cols :: cs) rows rows' := by
  obtain ⟨new, rfl, hnew, rfl⟩ := h
  refine ⟨row :: new, by simp, fun r hr => ?_, rfl⟩
  obtain rfl | hr := List.mem_cons.mp hr
  · exact hrow
  · exact hnew r hr

/-- No two of the keys are the same; rows without a key are not compared. -/
def DistinctKeys (keys : List (Option κ)) : Prop := keys.Pairwise fun a b => b.isSome = true → a ≠ b

variable [DecidableEq κ] {key : α → Option κ} {cols : β → Except Failure α} {newId : List (Row ι α) → ι}

theorem insertRows_appends (newId : List (Row ι α) → ι) {xs : List β} (hcols : List.Forall₂ (fun x c => cols x = .ok c) xs cs)
    (hkeys : DistinctKeys (cs.map key))
    (hfree : ∀ r ∈ rows, r.fileId = id → ∀ c ∈ cs, (key c).isSome = true → key r.cols ≠ key c) :
    ∃ rows', insertRows cols newId (sameKey key) id xs rows = .ok rows' ∧ Appends id cs rows rows' := by
  induction hcols generalizing rows with
  | nil => exact ⟨rows, rfl, .nil⟩
  | @cons x c xs cs hx _ ih =>
    rw [List.map_cons, DistinctKeys, List.pairwise_cons] at hkeys
    have hadd : insertRow (sameKey key) rows ⟨newId rows, id, c⟩ = .ok (rows ++ [⟨newId rows, id, c⟩]) := by
      rw [insertRow, if_neg]
      simp only [List.any_eq_true, sameKey, Bool.and_eq_true, decide_eq_true_eq, not_exists, not_and]
      intro r hr hid hsome
      exact hfree r hr hid.1 c List.mem_cons_self hid.2 hsome
    have hnext : ∀ r ∈ rows ++ [⟨newId rows, id, c⟩], r.fileId = id → ∀ d ∈ cs, (key d).isSome = true →
        key r.cols ≠ key d := by
      intro r hr hid d hd hsome
      obtain hr | hr := List.mem_append.mp hr
      · exact hfree r hr hid d (List.mem_cons_of_mem c hd) hsome
      · rw [List.mem_singleton.mp hr]
        exact hkeys.1 (key d) (List.mem_map_of_mem hd) hsome
    obtain ⟨rows', hrest, happ⟩ := ih hkeys.2 hnext
    refine ⟨rows', ?_, happ.cons rfl⟩
    rw [insertRows, hx]
    simp only [Except.bind, hadd]
    exact hrest

/-- Ids stay unique, since each new one is unused. -/
theorem insertRows_nodup {blocked : Row ι α → Row ι α → Bool} {xs : List β}
    (hnew : ∀ l : List (Row ι α), newId l ∉ l.map (·.id))
    (h : insertRows cols newId blocked id xs rows = .ok rows') (hrows : (rows.map (·.id)).Nodup) :
    (rows'.map (·.id)).Nodup := by
  induction xs generalizing rows with
  | nil =>
    cases h
    exact hrows
  | cons x xs ih =>
    rw [insertRows] at h
    cases hx : cols x with
    | error e => simp [hx, Except.bind] at h
    | ok c =>
      simp only [hx, Except.bind, insertRow] at h
      split at h
      · cases h
      · rename_i rows₂ hins
        split at hins
        · cases hins
        · cases hins
          refine ih h ?_
          rw [List.map_append]
          exact List.Nodup.append hrows (List.nodup_singleton _) (by simpa using hnew rows)

end Inserted

section Boundaries

/-- The tags without repetitions, in the order they were first met. -/
def distinctTags (tags : List String) : List String :=
  tags.foldl (fun acc tag => if acc.contains tag then acc else acc ++ [tag]) []

theorem foldl_insertOrIgnore {rows : List (Row Unit String)} {id : Int} (hfree : ∀ r ∈ rows, r.fileId ≠ id)
    (tags : List String) :
    tags.foldl (fun rows tag => insertOrIgnore rows ⟨(), id, tag⟩) rows
      = rows ++ (distinctTags tags).map fun tag => ⟨(), id, tag⟩ := by
  have key : ∀ (tags acc : List String),
      tags.foldl (fun rows tag => insertOrIgnore rows ⟨(), id, tag⟩)
          (rows ++ acc.map fun tag => (⟨(), id, tag⟩ : Row Unit String))
        = rows ++ (tags.foldl (fun acc tag => if acc.contains tag then acc else acc ++ [tag]) acc).map
            fun tag => ⟨(), id, tag⟩ := by
    intro tags
    induction tags with
    | nil => exact fun acc => rfl
    | cons tag tags ih =>
      intro acc
      have hmem : (rows ++ acc.map fun tag => (⟨(), id, tag⟩ : Row Unit String)).contains ⟨(), id, tag⟩
          = acc.contains tag := by
        rw [Bool.eq_iff_iff, List.contains_iff_mem, List.contains_iff_mem, List.mem_append]
        constructor
        · rintro (h | h)
          · exact absurd rfl (hfree _ h)
          · simpa using h
        · exact fun h => .inr (List.mem_map.mpr ⟨tag, h, rfl⟩)
      rw [List.foldl_cons, List.foldl_cons, insertOrIgnore, hmem]
      cases acc.contains tag with
      | true => exact ih acc
      | false =>
        have := ih (acc ++ [tag])
        simpa using this
  simpa [distinctTags] using key tags []

theorem appends_boundaries {rows : List (Row Unit String)} {id : Int} (hfree : ∀ r ∈ rows, r.fileId ≠ id)
    (tags : List String) :
    Appends id (distinctTags tags) rows
      (tags.foldl (fun rows tag => insertOrIgnore rows ⟨(), id, tag⟩) rows) := by
  refine ⟨_, foldl_insertOrIgnore hfree tags, fun r hr => ?_, ?_⟩
  · obtain ⟨tag, -, rfl⟩ := List.mem_map.mp hr
    rfl
  · rw [List.map_map]
    exact List.map_id _

end Boundaries

section Writes

variable {J : Type} {toJson : J → Option String} {pick : List Int → Int} {now : Int} {t : Tables}

/-- The row of a file that has been written. -/
def writtenFile (now : Int) (r : Replacement J) : FileCols :=
  { path := r.file.path, language := r.file.language, contentHash := r.file.contentHash, indexedAt := now,
    boundariesDerivedAt := now, interpretation := some r.interpretation, isTest := r.file.isTest }

/-- The columns the writers bind for a replacement. -/
structure Writes (toJson : J → Option String) (now : Int) (r : Replacement J) (p : Payload) : Prop where
  file : p.file = writtenFile now r
  symbols : List.Forall₂ (fun s c => symbolCols toJson s = .ok c) r.symbols p.symbols
  refs : List.Forall₂ (fun x c => refCols x = .ok c) r.references p.refs
  pythonBindings :
    List.Forall₂ (fun x c => bindingCols toJson x = .ok c) (bindingInputs r.pythonBindings) p.pythonBindings
  symbolFingerprints : List.Forall₂ (fun x c => fingerprintCols x = .ok c) r.fingerprints p.symbolFingerprints
  fileTrustBoundaries : p.fileTrustBoundaries = distinctTags r.trustBoundaries

/-- No row meets a unique index. -/
structure Payload.Keyed (p : Payload) : Prop where
  symbols : DistinctKeys (p.symbols.map symbolKey)
  refs : DistinctKeys (p.refs.map refKey)
  pythonBindings : DistinctKeys (p.pythonBindings.map bindingKey)
  symbolFingerprints : DistinctKeys (p.symbolFingerprints.map fingerprintKey)

theorem updateFile_snoc {files : List FileRow} {id : Int} {cols : FileCols} (hfresh : id ∉ fileIds files)
    (f : FileCols → FileCols) (ht : t.files = files ++ [⟨id, cols⟩]) :
    updateFile t id f = { t with files := files ++ [⟨id, f cols⟩] } := by
  have hold : files.map (fun row => if row.id = id then { row with cols := f row.cols } else row) = files := by
    refine (List.map_congr_left fun row hrow => ?_).trans (List.map_id _)
    rw [if_neg]
    · rfl
    · rintro rfl
      exact hfresh (List.mem_map_of_mem hrow)
  rw [updateFile, ht, List.map_append, hold]
  simp

theorem filter_fileId_ne {ι α : Type} {rows : List (Row ι α)} {id : Int} (h : ∀ r ∈ rows, r.fileId ≠ id) :
    rows.filter (fun r => decide (r.fileId ≠ id)) = rows :=
  List.filter_eq_self.mpr fun r hr => decide_eq_true (h r hr)

theorem Owned.ne {ι α : Type} {files : List FileRow} {rows : List (Row ι α)} {id : Int} (h : Owned files rows)
    (hfresh : id ∉ fileIds files) : ∀ r ∈ rows, r.fileId ≠ id := by
  rintro r hr rfl
  exact hfresh (h r hr)

/-- `upsert_file` for a path that is not in the table. -/
theorem upsertFile_new {file : FileInfo} (ht : t.Sound) (hpick : ∀ l, pick l ∉ l)
    (hpath : file.path ∉ filePaths t.files) :
    upsertFile pick now t file = ({ t with files := t.files ++ [⟨pick (fileIds t.files), {
      path := file.path, language := file.language, contentHash := file.contentHash, indexedAt := now,
      boundariesDerivedAt := 0, interpretation := none, isTest := file.isTest }⟩] }, pick (fileIds t.files)) := by
  have hfresh := hpick (fileIds t.files)
  have hnone : t.files.find? (·.cols.path = file.path) = none := by
    rw [List.find?_eq_none]
    intro row hrow hp
    exact hpath (List.mem_map.mpr ⟨row, hrow, of_decide_eq_true hp⟩)
  rw [upsertFile, upsertRow, hnone]
  simp only [clearFile]
  rw [filter_fileId_ne (ht.symbols.ne hfresh), filter_fileId_ne (ht.refs.ne hfresh),
    filter_fileId_ne (ht.pythonBindings.ne hfresh), filter_fileId_ne (ht.symbolFingerprints.ne hfresh),
    filter_fileId_ne (ht.fileTrustBoundaries.ne hfresh), updateFile_snoc hfresh _ rfl]

theorem pickRow_unused {α : Type} (hpick : ∀ l, pick l ∉ l) (rows : List (Row Int α)) :
    pickRow pick rows ∉ rows.map (·.id) := hpick _

theorem writeOne_extends {r : Replacement J} {p : Payload} (hpick : ∀ l, pick l ∉ l) (ht : t.Sound)
    (hpath : r.file.path ∉ filePaths t.files) (hw : Writes toJson now r p) (hk : p.Keyed) :
    ∃ t' id, writeOne toJson pick now t r = .ok t' ∧ Extends t t' p id := by
  have hfresh := hpick (fileIds t.files)
  set id := pick (fileIds t.files) with hid
  -- nothing of the tables belongs to the new id, so no key is taken
  obtain ⟨symbols, hsymbols, hsapp⟩ := insertRows_appends (pickRow pick) hw.symbols hk.symbols
    fun r hr heq => absurd heq (ht.symbols.ne hfresh r hr)
  obtain ⟨refs, hrefs, hrapp⟩ := insertRows_appends (pickRow pick) hw.refs hk.refs
    fun r hr heq => absurd heq (ht.refs.ne hfresh r hr)
  obtain ⟨bindings, hbindings, hbapp⟩ := insertRows_appends (fun _ => ()) hw.pythonBindings hk.pythonBindings
    fun r hr heq => absurd heq (ht.pythonBindings.ne hfresh r hr)
  obtain ⟨fps, hfps, hfapp⟩ := insertRows_appends (pickRow pick) hw.symbolFingerprints hk.symbolFingerprints
    fun r hr heq => absurd heq (ht.symbolFingerprints.ne hfresh r hr)
  have hwritten : writeOne toJson pick now t r = .ok {
      files := t.files ++ [⟨id, writtenFile now r⟩]
      symbols := symbols
      refs := refs
      pythonBindings := bindings
      symbolFingerprints := fps
      fileTrustBoundaries :=
        r.trustBoundaries.foldl (fun rows tag => insertOrIgnore rows ⟨(), id, tag⟩) t.fileTrustBoundaries } := by
    rw [writeOne, writeRows, upsertFile_new ht hpick hpath, ← hid]
    simp only [insertSymbols, hsymbols, insertReferences, hrefs, insertPythonBindings, hbindings,
      insertFingerprints, hfps, Except.map, Except.bind, replaceFileTrustBoundaries,
      filter_fileId_ne (ht.fileTrustBoundaries.ne hfresh)]
    rw [updateFile_snoc hfresh _ rfl, recordFileInterpretation, updateFile_snoc hfresh _ rfl]
    rfl
  refine ⟨_, id, hwritten, ?_⟩
  exact {
    fresh := hfresh
    freshPath := by
      rw [hw.file]
      exact hpath
    files := by rw [hw.file]
    symbols := hsapp
    refs := hrapp
    pythonBindings := hbapp
    symbolFingerprints := hfapp
    fileTrustBoundaries := hw.fileTrustBoundaries ▸ appends_boundaries (ht.fileTrustBoundaries.ne hfresh) _
    symbolIds := insertRows_nodup (pickRow_unused hpick) hsymbols ht.symbolIds
    refIds := insertRows_nodup (pickRow_unused hpick) hrefs ht.refIds
    fingerprintIds := insertRows_nodup (pickRow_unused hpick) hfps ht.fingerprintIds }

/-- Writing replacements for paths that are not in the tables adds their content in order. -/
theorem writeAll_content {replacements : List (Replacement J)} {payloads : List Payload} (hpick : ∀ l, pick l ∉ l)
    (hw : List.Forall₂ (Writes toJson now) replacements payloads) (hk : ∀ p ∈ payloads, p.Keyed) (ht : t.Sound)
    (hpaths : (filePaths t.files ++ replacements.map (·.file.path)).Nodup) :
    ∃ t', writeAll (writeOne toJson pick now) replacements t = .ok t'
      ∧ t'.content = payloads.foldl (fun c p => c.append p.content) t.content := by
  induction hw generalizing t with
  | nil => exact ⟨t, rfl, rfl⟩
  | @cons r p replacements payloads hr _ ih =>
    have hpath : r.file.path ∉ filePaths t.files := by
      intro hmem
      exact List.disjoint_of_nodup_append hpaths hmem (by simp)
    obtain ⟨t₁, id, hone, hext⟩ := writeOne_extends hpick ht hpath hr (hk p List.mem_cons_self)
    have hnext : (filePaths t₁.files ++ replacements.map (·.file.path)).Nodup := by
      have hfiles : filePaths t₁.files = filePaths t.files ++ [r.file.path] := by
        rw [hext.files, filePaths, List.map_append, hr.file]
        rfl
      rw [hfiles]
      simpa using hpaths
    obtain ⟨t', hrest, hcontent⟩ := ih (fun q hq => hk q (List.mem_cons_of_mem p hq)) (hext.sound ht) hnext
    refine ⟨t', ?_, ?_⟩
    · rw [writeAll, hone]
      exact hrest
    · rw [hcontent, hext.content ht]
      rfl

end Writes

section Removed

/-- The tables without the files of the given ids and what belongs to them. -/
def Tables.without (t : Tables) (ids : List Int) : Tables where
  files := t.files.filter (·.id ∉ ids)
  symbols := t.symbols.filter (·.fileId ∉ ids)
  refs := t.refs.filter (·.fileId ∉ ids)
  pythonBindings := t.pythonBindings.filter (·.fileId ∉ ids)
  symbolFingerprints := t.symbolFingerprints.filter (·.fileId ∉ ids)
  fileTrustBoundaries := t.fileTrustBoundaries.filter (·.fileId ∉ ids)

/-- The ids of the files at the given paths. -/
def idsAt (t : Tables) (paths : List String) : List Int := fileIds (t.files.filter (·.cols.path ∈ paths))

theorem owned_without {ι α : Type} {files : List FileRow} {rows : List (Row ι α)} (h : Owned files rows)
    (ids : List Int) :
    Owned (files.filter (·.id ∉ ids)) (rows.filter (·.fileId ∉ ids)) := by
  intro r hr
  obtain ⟨hmem, hid⟩ := List.mem_filter.mp hr
  obtain ⟨f, hf, heq⟩ := List.mem_map.mp (h r hmem)
  exact List.mem_map.mpr ⟨f, List.mem_filter.mpr ⟨hf, heq ▸ hid⟩, heq⟩

theorem Tables.Sound.without {t : Tables} (h : t.Sound) (ids : List Int) : (t.without ids).Sound where
  ids := h.ids.sublist (List.filter_sublist.map _)
  paths := h.paths.sublist (List.filter_sublist.map _)
  symbols := owned_without h.symbols ids
  refs := owned_without h.refs ids
  pythonBindings := owned_without h.pythonBindings ids
  symbolFingerprints := owned_without h.symbolFingerprints ids
  fileTrustBoundaries := owned_without h.fileTrustBoundaries ids
  symbolIds := h.symbolIds.sublist (List.filter_sublist.map _)
  refIds := h.refIds.sublist (List.filter_sublist.map _)
  fingerprintIds := h.fingerprintIds.sublist (List.filter_sublist.map _)

theorem mem_idsAt {t : Tables} (ht : t.Sound) {f : FileRow} (hf : f ∈ t.files) (paths : List String) :
    f.id ∈ idsAt t paths ↔ f.cols.path ∈ paths := by
  constructor
  · intro h
    obtain ⟨g, hg, heq⟩ := List.mem_map.mp h
    obtain ⟨hg, hpath⟩ := List.mem_filter.mp hg
    rw [← List.inj_on_of_nodup_map ht.ids hg hf heq]
    exact of_decide_eq_true hpath
  · exact fun h => List.mem_map_of_mem (List.mem_filter.mpr ⟨hf, decide_eq_true h⟩)

theorem removeFile_eq {t : Tables} (ht : t.Sound) (path : String) : removeFile t path = t.without (idsAt t [path]) := by
  have hgone : fileIds (t.files.filter (·.cols.path = path)) = idsAt t [path] := by simp [idsAt]
  have hfiles : t.files.filter (·.cols.path ≠ path) = t.files.filter (·.id ∉ idsAt t [path]) := by
    refine List.filter_congr fun f hf => ?_
    rw [decide_eq_decide, not_iff_not, mem_idsAt ht hf, List.mem_singleton]
  rw [removeFile, hgone, hfiles]
  rfl

theorem filter_not_mem {β : Type} (g : β → Int) (l : List β) {a b c : List Int}
    (h : ∀ x, x ∉ c ↔ x ∉ a ∧ x ∉ b) :
    (l.filter (fun r => decide (g r ∉ a))).filter (fun r => decide (g r ∉ b)) = l.filter fun r => decide (g r ∉ c) := by
  rw [List.filter_filter]
  refine List.filter_congr fun r _ => ?_
  rw [Bool.eq_iff_iff, Bool.and_eq_true, decide_eq_true_eq, decide_eq_true_eq, decide_eq_true_eq, h, and_comm]

theorem Tables.without_without (t : Tables) {a b c : List Int} (h : ∀ x, x ∉ c ↔ x ∉ a ∧ x ∉ b) :
    (t.without a).without b = t.without c := by
  simp only [Tables.without, Tables.mk.injEq]
  exact ⟨filter_not_mem FileRow.id _ h, filter_not_mem Row.fileId _ h, filter_not_mem Row.fileId _ h,
    filter_not_mem Row.fileId _ h, filter_not_mem Row.fileId _ h, filter_not_mem Row.fileId _ h⟩

theorem without_idsAt_append (t : Tables) (a b : List String) :
    (t.without (idsAt t a)).without (idsAt (t.without (idsAt t a)) b) = t.without (idsAt t (a ++ b)) := by
  refine t.without_without fun x => ?_
  simp only [idsAt, fileIds, Tables.without, List.mem_map, List.mem_filter, decide_eq_true_eq, List.mem_append]
  grind

/-- Removing one file after another takes away the files at those paths. -/
theorem foldl_removeFile {t : Tables} (ht : t.Sound) (dirty : List String) :
    dirty.foldl removeFile t = t.without (idsAt t dirty) := by
  induction dirty using List.reverseRecOn with
  | nil => simp [idsAt, fileIds, Tables.without]
  | append_singleton dirty path ih =>
    rw [List.foldl_append, ih, List.foldl_cons, List.foldl_nil, removeFile_eq (ht.without _), without_idsAt_append]

end Removed

end Storage
end CodeSage
